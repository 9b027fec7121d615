import CubeAxes.Proofs.Arena.Shape
import CubeAxes.Proofs.Axis.Alike
import CubeAxes.Proofs.Outline.TreeOrder

/-!
# Every mutation normalizes

Whatever the set on an axis was put together like, a mutation that succeeds leaves a chain of sets of members, one for each hierarchy
and each in tree order, with a node for every set and every join and none besides (`Outline.Orderly.run_normalized`). An axis like
that on which no set is empty is built anew as it is: adding a level that brings in nothing gives it back node for node.
-/

namespace CubeAxes

namespace Outline

variable {o : Outline}

/-- An axis as a mutation leaves it: a chain of calls that joins the members of selections, one after the other. Its nodes are those
of the chain, each referring to earlier ones and each reached from the root. The selections are of different hierarchies, the
members of each are of its hierarchy and in tree order, and no name is on the axis twice. -/
structure Normalized (o : Outline) (axis : Axis) (ss : List Selection) : Prop where
  nonempty : ss ≠ []
  joins : axis.Joins (ss.map (·.members))
  size : axis.nodes.size = 2 * ss.length - 1
  ordered : axis.nodes.Ordered
  reached : ∃ root, axis.root = some root ∧ ∀ id, id < axis.nodes.size → axis.nodes.Reaches root id
  sorts : ∀ s ∈ ss, o.Sorts s
  hierarchies : (ss.map (·.hierarchy)).Nodup
  names : (axis.members.map (·.uniqueName)).Nodup
  order : ∀ s ∈ ss, o.InTreeOrder s.members

/-- Selections of different hierarchies, none of which names a member twice, do not name one twice together. -/
theorem nodup_flatMap_members {ss : List Selection} (hss : ∀ s ∈ ss, o.Sorts s) (hh : (ss.map (·.hierarchy)).Nodup)
    (hnodup : ∀ s ∈ ss, (s.members.map (·.uniqueName)).Nodup) : ((ss.flatMap (·.members)).map (·.uniqueName)).Nodup := by
  induction ss with
  | nil => exact List.nodup_nil
  | cons s ss ih =>
    obtain ⟨hs, hss'⟩ := List.forall_mem_cons.1 hss
    obtain ⟨hn, hnodup'⟩ := List.forall_mem_cons.1 hnodup
    obtain ⟨hnew, hh'⟩ := List.nodup_cons.1 hh
    rw [List.flatMap_cons, List.map_append]
    refine hn.append (ih hss' hh' hnodup') fun u hu hu' => hnew ?_
    obtain ⟨m, hm, rfl⟩ := List.mem_map.1 hu
    obtain ⟨n, hn, hnu⟩ := List.mem_map.1 hu'
    obtain ⟨t, ht, hnt⟩ := List.mem_flatMap.1 hn
    obtain rfl := (hss' t ht n hnt).1.eq_of_uniqueName (hs m hm).1 hnu
    exact List.mem_map.2 ⟨t, ht, (hss' t ht n hnt).2.symm.trans (hs n hm).2⟩

/-- The axis built from selections of different hierarchies is normalized. -/
theorem Consistent.normalized_of_ofSets (hc : Consistent o) {ss : List Selection} (hss : ∀ s ∈ ss, o.Sorts s)
    (hh : (ss.map (·.hierarchy)).Nodup) {hierarchize : Bool} {axis : Axis}
    (h : Axis.ofSets (ss.map fun s => o.arranged s.members) hierarchize = .ok axis) :
    o.Normalized axis (ss.map o.ordered) ∧ axis.hierarchize = hierarchize ∧ axis.Selects (ss.map o.ordered) := by
  obtain ⟨hne, hsize, hordered, hreached⟩ := Axis.shape_of_ofSets h
  have hne' : ss ≠ [] := by simpa using hne
  obtain ⟨axis', haxis, hz, hj, hsel⟩ := exists_ofSets_ordered hne' hss hh hierarchize
  obtain rfl := Except.ok.inj (haxis.symm.trans h)
  have hsorts : ∀ s ∈ ss.map o.ordered, o.Sorts s := List.forall_mem_map.2 fun s hs => (hss s hs).ordered
  have hh' : ((ss.map o.ordered).map (·.hierarchy)).Nodup := by
    rw [List.map_map]
    exact hh
  refine ⟨⟨by simpa using hne', ?_, ?_, hordered, hreached, hsorts, hh', ?_, ?_⟩, hz, hsel⟩
  · rw [List.map_map]
    exact hj
  · rw [hsize, List.length_map, List.length_map]
  · rw [hsel.members]
    exact nodup_flatMap_members hsorts hh' (List.forall_mem_map.2 fun s _ => nodup_map_arranged o s.members)
  · refine List.forall_mem_map.2 fun s hs => ?_
    exact hc.inTreeOrder_of_pairwise (HoldsAll.arranged (hss s hs)) (hc.pairwise_arranged (hss s hs))

/-- Adding a level that brings in nothing gives back an axis that was built from selections none of which is empty, if the mode keeps its
mark. -/
theorem Consistent.add_eq_self (hc : Consistent o) {ss : List Selection} (hss : ∀ s ∈ ss, o.Sorts s) {axis : Axis}
    (hsel : axis.Selects (ss.map o.ordered)) (hfull : ∀ ms ∈ ss.map (fun s => o.arranged s.members), ms ≠ [])
    (h : Axis.ofSets (ss.map fun s => o.arranged s.members) axis.hierarchize = .ok axis) {l : Level} {position : Int}
    (hp : position ≤ axis.hierarchies.length) (hl : l.hierarchy ∈ axis.hierarchies) {drilled : List Member}
    (hd : o.catalog.expand (axis.membersOf l.hierarchy) l = .ok drilled) (hin : ∀ m ∈ drilled, m ∈ axis.members)
    (mode : HierarchizeMode) (hz : mode.apply axis.hierarchize = axis.hierarchize) {keys : SortKeys} (hk : o.Remembers keys) :
    ((Mutation.add l position).run o.catalog mode keys axis).result = .ok axis := by
  have hall : (ss.map o.ordered).filter (fun s => decide (s.members ≠ [])) = ss.map o.ordered := by
    refine List.filter_eq_self.2 (List.forall_mem_map.2 fun s hs => decide_eq_true ?_)
    exact hfull _ (List.mem_map.2 ⟨s, hs, rfl⟩)
  have hselections : axis.selections = ss.map o.ordered := hsel.selections_eq.trans hall
  have hsorts : ∀ s ∈ ss.map o.ordered, o.Sorts s := List.forall_mem_map.2 fun s hs => (hss s hs).ordered
  have hheld := holds_of_selects hsel hsorts
  have hlength : axis.selections.length = axis.hierarchies.length := by rw [← Axis.map_hierarchy_selections, List.length_map]
  obtain ⟨notes, hadd⟩ := Edit.adding_of_mem (hlength ▸ hp) hl hd
  have hedit : (Mutation.add l position).edit o.catalog axis = .ok _ := hadd
  rw [(hc.run_eq hedit (hc.sorts_edit hheld hedit) mode hk).1, hz]
  -- what is drilled to is selected already, so each selection put in order is what it was
  have hsame : (axis.selections.map (Selection.change l.hierarchy (· ++ drilled))).map (fun s => o.arranged s.members) =
      ss.map fun s => o.arranged s.members := by
    rw [hselections, List.map_map, List.map_map]
    refine List.map_congr_left fun s hs => ?_
    have hs' := List.mem_map_of_mem (f := o.ordered) hs
    simp only [Function.comp_apply]
    by_cases hh : (o.ordered s).hierarchy = l.hierarchy
    · rw [Selection.change_of_eq hh]
      refine (hc.arranged_congr (hss s hs) fun m => ?_).symm
      have hmem : m ∈ o.arranged s.members ↔ m ∈ s.members := mem_arranged fun n hn => (hss s hs n hn).1
      simp only [members_ordered, List.mem_append, hmem, iff_self_or]
      intro hm
      have hspec := hc.spec_of_expand (holdsAll_membersOf hheld l.hierarchy) hd m hm
      have hmof := (mem_membersOf hheld).2 ⟨hin m hm, hspec.2.1⟩
      rw [← hh, hsel.membersOf_eq hs'] at hmof
      exact hmem.1 hmof
    · rw [Selection.change_of_ne hh]
      exact hc.arranged_of_pairwise (fun m hm => (HoldsAll.arranged (hss s hs) m hm).1) (hc.pairwise_arranged (hss s hs))
  rw [hsame]
  exact h

/-- A mutation of an axis of held members that succeeds, over a catalog that may be interrupted, leaves a normalized axis, hierarchized
as the mode says. If no set on it is empty, then adding a level whose hierarchy is there and that brings in only members that are
there gives the same axis, node for node, unless the catalog is interrupted meanwhile. -/
theorem Orderly.run_normalized (ho : Orderly o) {down : CatalogCall → Option String} {axis axis' : Axis}
    (hax : ∀ m ∈ axis.members, o.Holds m) {m : Mutation} {mode : HierarchizeMode} {keys : SortKeys} (hk : o.Remembers keys)
    (h : (m.run (o.catalog.interrupted down) mode keys axis).result = .ok axis') :
    axis'.hierarchize = mode.apply axis.hierarchize ∧ (∃ ss, o.Normalized axis' ss) ∧
      ((∀ ms ∈ axis'.memberSets, ms ≠ []) → ∀ (l : Level) (position : Int) (drilled : List Member) (keys' : SortKeys)
        (down' : CatalogCall → Option String), l.hierarchy ∈ axis'.hierarchies → position ≤ axis'.hierarchies.length →
        o.catalog.expand (axis'.membersOf l.hierarchy) l = .ok drilled → (∀ n ∈ drilled, n ∈ axis'.members) → o.Remembers keys' →
        FailStop down' ((Mutation.add l position).run (o.catalog.interrupted down') .preserve keys' axis').result (.ok axis')) := by
  have hc := ho.consistent
  obtain ⟨edit, he, hss, hh, -, hsets⟩ := hc.spec_of_run hax hk ((m.failStop_run down o.catalog mode keys axis).eq_ok h)
  obtain ⟨hnormalized, hz, hsel⟩ := hc.normalized_of_ofSets hss hh hsets
  refine ⟨hz, ⟨_, hnormalized⟩, ?_⟩
  intro hfull l position drilled keys' down' hl hp hd hin hk'
  rw [hnormalized.joins.memberSets_eq, List.map_map] at hfull
  rw [← hz] at hsets
  rw [← hc.add_eq_self hss hsel hfull hsets hp hl hd hin .preserve rfl hk']
  exact (Mutation.add l position).failStop_run down' o.catalog .preserve keys' axis'

/-- An axis on which no set is empty and the level to which `sampleDrill` drills brings in nothing. -/
def sampleDrilled (axis : Axis) : Bool :=
  axis.memberSets.all (fun ms => decide (ms ≠ [])) && decide ("Product" ∈ axis.hierarchies) &&
    (sample.catalog.expand (axis.membersOf "Product") ⟨"Product", "Department", 2⟩).toOption.any fun drilled =>
      drilled.all fun n => decide (n ∈ axis.members)

/-- On the small cube a union of tuples and joins is normalized by drilling its families, and drilling again changes nothing. -/
theorem sample_run_normalized :
    ∃ added ss, (sampleDrill.run sample.catalog .preserve [] sampleUnited).result = .ok added ∧ sample.Normalized added ss ∧
      (sampleDrill.run sample.catalog .preserve [] added).result = .ok added := by
  have hheld : ∀ m ∈ sampleUnited.members, sample.member? m.uniqueName = some m := by decide +kernel
  have hdrilled : ((sampleDrill.run sample.catalog .preserve [] sampleUnited).result.toOption.any sampleDrilled) = true := by
    decide +kernel
  obtain ⟨added, hadded, hdrilled⟩ := exists_of_any_toOption hdrilled
  simp only [sampleDrilled, Bool.and_eq_true, List.all_eq_true, decide_eq_true_eq] at hdrilled
  obtain ⟨⟨hfull, hin⟩, hexpand⟩ := hdrilled
  obtain ⟨drilled, hd, hexpand⟩ := exists_of_any_toOption hexpand
  simp only [List.all_eq_true, decide_eq_true_eq] at hexpand
  have hrun : (sampleDrill.run (sample.catalog.interrupted fun _ => none) .preserve [] sampleUnited).result = .ok added := hadded
  obtain ⟨-, ⟨ss, hss⟩, hagain⟩ := orderly_sample.run_normalized hheld (remembers_nil sample) hrun
  refine ⟨added, ss, hadded, hss, ?_⟩
  have hsame := hagain hfull ⟨"Product", "Department", 2⟩ 0 drilled [] (fun _ => none) hin (Int.natCast_nonneg _) hd hexpand
    (remembers_nil sample)
  rcases hsame with heq | ⟨_, ⟨_, _, hnone, -⟩, -⟩
  · exact heq
  · nomatch hnone

end Outline

end CubeAxes
