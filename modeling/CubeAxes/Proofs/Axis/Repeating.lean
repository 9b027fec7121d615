import CubeAxes.Proofs.Axis.Adding
import CubeAxes.Proofs.Axis.Appending

/-!
# Adding a level again

Adding a level that an axis was just given changes nothing (`Outline.Orderly.add_again`), wherever it is then asked to stand and whatever
sort keys are remembered. The second time the hierarchy is there, even if it was not the first time, so the level is drilled to; what
comes of that is there already (`Outline.Consistent.drillsTo_again`, `Outline.drillsTo_of_depth_eq`), so the axis is built anew as it is
(`Outline.OperandsAre.add_eq_self`).
-/

namespace CubeAxes

namespace Outline

variable {o : Outline} {axis added : Axis} {l : Level} {keys : SortKeys}

/-- A mutation of an axis of held members remembers no wrong sort key, whether or not it succeeds. -/
theorem Consistent.remembers_run (hc : Consistent o) (hax : ∀ m ∈ axis.members, o.Holds m) (m : Mutation) (mode : HierarchizeMode)
    (hk : o.Remembers keys) : o.Remembers (m.run o.catalog mode keys axis).keys := by
  cases he : m.edit o.catalog axis with
  | error e =>
    rw [Mutation.run, he]
    exact hk
  | ok edit => exact (hc.run_eq he (hc.sorts_edit hax he) mode hk).2

/-- A level changes nothing on an axis where every operand has members, that of its hierarchy is there, and whatever comes of drilling
to it is there too. -/
theorem OperandsAre.add_eq_self (hc : Consistent o) {hierarchies : List String} {P : String → Member → Prop}
    (h : o.OperandsAre axis hierarchies P) (hfull : ∀ n ∈ hierarchies, ∃ m, P n m) (hl : o.HasTable l) (hin : l.hierarchy ∈ hierarchies)
    (hdrills : ∀ m, o.DrillsTo (axis.membersOf l.hierarchy) l m → m ∈ axis.membersOf l.hierarchy) {q : Int}
    (hq : q ≤ axis.hierarchies.length) (mode : HierarchizeMode) (hz : mode.apply axis.hierarchize = axis.hierarchize)
    (hk : o.Remembers keys) : ((Mutation.add l q).run o.catalog mode keys axis).result = .ok axis := by
  rw [← h.hierarchies_eq hfull] at hin
  obtain ⟨drilled, hdrilled, hspec⟩ := hc.exists_expand_drillsTo hl (holdsAll_membersOf h.holds l.hierarchy)
  obtain ⟨ss, hn, rfl, hmem, hsets⟩ := h
  obtain ⟨-, -, hsel⟩ := hc.normalized_of_ofSets hn.sorts hn.hierarchies hsets
  have hnonempty : ∀ ms ∈ ss.map (fun s => o.arranged s.members), ms ≠ [] := by
    refine List.forall_mem_map.2 fun s hs => ?_
    obtain ⟨m, hm⟩ := hfull s.hierarchy (List.mem_map_of_mem hs)
    exact List.ne_nil_of_mem ((mem_arranged fun n hns => (hn.sorts s hs n hns).1).2 ((hmem s hs m).2 hm))
  refine hc.add_eq_self hn.sorts hsel hnonempty hsets hq hin hdrilled (fun m hm => ?_) mode hz hk
  exact (Axis.mem_of_mem_membersOf (hdrills m ((hspec m).1 hm))).1

/-- A level that has members changes nothing on an axis that it was just added to. -/
theorem Consistent.add_eq_self_of_added (hc : Consistent o) (hax : ∀ m ∈ axis.members, o.Holds m) (hm : o.HasMembers l) {p : Int}
    (ha : o.Added axis l p added) {q : Int} (hq : q ≤ added.hierarchies.length) (mode : HierarchizeMode)
    (hz : mode.apply added.hierarchize = added.hierarchize) (hk : o.Remembers keys) :
    ((Mutation.add l q).run o.catalog mode keys added).result = .ok added := by
  by_cases hin : l.hierarchy ∈ axis.hierarchies
  · -- drilled to: what came of that the first time comes the second time, and nothing else
    have h := ha.drilled hin
    have hmem : ∀ m, m ∈ added.membersOf l.hierarchy ↔
        m ∈ axis.membersOf l.hierarchy ∨ o.DrillsTo (axis.membersOf l.hierarchy) l m := by
      intro m
      simp [h.mem_membersOf hin]
    refine h.add_eq_self hc ?_ (hc.hasTable hm) hin ?_ hq mode hz hk
    · intro n hn
      obtain ⟨m, hmn⟩ := exists_mem_membersOf hax hn
      exact ⟨m, Or.inl hmn⟩
    · intro m hdrills
      rw [hc.drillsTo_again (holdsAll_membersOf hax l.hierarchy) hmem] at hdrills
      exact (hmem m).2 (Or.inr hdrills)
  · -- brought in: all members of the new operand are at the level, and drilling them there gives them back
    obtain ⟨index, hindex, -, h⟩ := ha.inserted hin
    have hnew : l.hierarchy ∈ axis.hierarchies.insertIdx index l.hierarchy := (List.mem_insertIdx hindex).2 (Or.inl rfl)
    have hdepth : ∀ m ∈ added.membersOf l.hierarchy, m.depth = l.depth := by
      intro m hmem
      rcases (h.mem_membersOf hnew).1 hmem with hold | ⟨-, -, -, hd⟩
      · exact absurd (Axis.mem_hierarchies_of_mem_membersOf hold) hin
      · exact hd
    refine h.add_eq_self hc ?_ (hc.hasTable hm) hnew (fun m => (drillsTo_of_depth_eq hdepth).1) hq mode hz hk
    intro n hn
    rcases (List.mem_insertIdx hindex).1 hn with rfl | hn
    · obtain ⟨m, hheld⟩ := hm
      exact ⟨m, Or.inr ⟨rfl, hheld⟩⟩
    · obtain ⟨m, hmn⟩ := exists_mem_membersOf hax hn
      exact ⟨m, Or.inl hmn⟩

/-- Adding a level of an orderly outline that has members, at any position that is not beyond the hierarchies, succeeds, and adding it to
what comes of that, at any position there, gives the same axis, node for node. So it does with the sort keys that the first addition
leaves, and with any others that are right. -/
theorem Orderly.add_again (ho : Orderly o) (hax : ∀ m ∈ axis.members, o.Holds m) (hm : o.HasMembers l) {p : Int}
    (hp : p ≤ axis.hierarchies.length) (mode : HierarchizeMode) (hk : o.Remembers keys) :
    ∃ added, ((Mutation.add l p).run o.catalog mode keys axis).result = .ok added ∧ o.Added axis l p added ∧
      o.Remembers ((Mutation.add l p).run o.catalog mode keys axis).keys ∧
      ∀ q keys', q ≤ (added.hierarchies.length : Int) → o.Remembers keys' →
        ((Mutation.add l q).run o.catalog mode keys' added).result = .ok added := by
  have hc := ho.consistent
  obtain ⟨added, hadded, hz, hspec⟩ := hc.exists_added hax (hc.hasTable hm) hp mode hk
  have hkept : mode.apply added.hierarchize = added.hierarchize := by rw [hz, HierarchizeMode.apply_apply]
  refine ⟨added, hadded, hspec, hc.remembers_run hax _ mode hk, ?_⟩
  intro q keys' hq hk'
  exact hc.add_eq_self_of_added hax hm hspec hq mode hkept hk'

/-- Whether a level of the small cube has members and can be added to an axis of held members at a position, which leaves sets of members
of these names, and the other position is in order then. -/
def sampleAdds (axis : Axis) (l : Level) (p q : Int) (names : List (List String)) : Bool :=
  decide (∀ m ∈ axis.members, sample.member? m.uniqueName = some m) && decide (sample.rows l.hierarchy l.depth ≠ []) &&
    decide (p ≤ axis.hierarchies.length) && ((Mutation.add l p).run sample.catalog .preserve [] axis).result.toOption.any fun added =>
      decide (q ≤ added.hierarchies.length) && decide (added.memberSets.map (·.map (·.name)) = names)

/-- On the small cube adding a level again changes nothing where families came in before a gender, where departments were drilled to on a
union of tuples and joins, and where the top was climbed to from a gender. -/
theorem sample_add_again :
    (∃ added, ((Mutation.add ⟨"Product", "Family", 1⟩ 0).run sample.catalog .preserve [] sampleGender).result = .ok added ∧
        ((Mutation.add ⟨"Product", "Family", 1⟩ 2).run sample.catalog .preserve [] added).result = .ok added ∧
        added.memberSets.map (·.map (·.name)) = [["Drink", "Food [new]"], ["F"]]) ∧
      (∃ added, ((Mutation.add ⟨"Product", "Department", 2⟩ 0).run sample.catalog .preserve [] sampleUnited).result = .ok added ∧
        ((Mutation.add ⟨"Product", "Department", 2⟩ (-1)).run sample.catalog .preserve [] added).result = .ok added ∧
        added.memberSets.map (·.map (·.name)) = [["Drink", "Dairy", "Beverages", "Food [new]", "Snacks"], ["F", "M"]]) ∧
      ∃ added, ((Mutation.add ⟨"Gender", "(All)", 0⟩ (-1)).run sample.catalog .preserve [] sampleGender).result = .ok added ∧
        ((Mutation.add ⟨"Gender", "(All)", 0⟩ 1).run sample.catalog .preserve [] added).result = .ok added ∧
        added.memberSets.map (·.map (·.name)) = [["All", "F"]] := by
  have hagain : ∀ {axis l p q names}, sampleAdds axis l p q names = true →
      ∃ added, ((Mutation.add l p).run sample.catalog .preserve [] axis).result = .ok added ∧
        ((Mutation.add l q).run sample.catalog .preserve [] added).result = .ok added ∧
        added.memberSets.map (·.map (·.name)) = names := by
    intro axis l p q names h
    simp only [sampleAdds, Bool.and_eq_true, decide_eq_true_eq] at h
    obtain ⟨⟨⟨hheld, hrows⟩, hp⟩, hrun⟩ := h
    have hm : sample.HasMembers l := orderly_sample.consistent.hasMembers_iff.2 hrows
    obtain ⟨added, hadded, -, -, hsame⟩ := orderly_sample.add_again hheld hm hp .preserve (remembers_nil sample)
    simp only [hadded, Except.toOption, Option.any_some, Bool.and_eq_true, decide_eq_true_eq] at hrun
    exact ⟨added, hadded, hsame q [] hrun.1 (remembers_nil sample), hrun.2⟩
  exact ⟨hagain (by decide +kernel), hagain (by decide +kernel), hagain (by decide +kernel)⟩

end Outline

end CubeAxes
