import CubeAxes.Proofs.Axis.Adding
import CubeAxes.Proofs.Axis.Removing

/-!
# Rolling up and drilling again

Removing the deepest level of a hierarchy rolls its members up, and adding it again drills down from where they came to. What is then
selected is said by `Outline.Redrilled`. Nothing that was selected is lost (`Outline.redrilled_of_mem`), but more may come in:
the members that were rolled up to, and all that descends at the level from these and from those beside them. That nothing does is an
exact condition on what was selected (`Outline.Consistent.redrilled_iff_mem`).
-/

namespace CubeAxes

/-- Among several depths at most one is the next above a bound. -/
theorem IsDepthAbove.unique {depths : List Nat} {bound d d' : Nat} (h : IsDepthAbove depths bound d)
    (h' : IsDepthAbove depths bound d') : d = d' :=
  Nat.le_antisymm (h'.2.2 d h.1 h.2.1) (h.2.2 d' h'.1 h'.2.1)

/-- A level rolls up to a depth on an axis: none of the depths of its hierarchy there is below it, and this one is the next above. -/
structure Axis.RollsUp (axis : Axis) (l : Level) (d : Nat) : Prop where
  deepest : ∀ e ∈ axis.depths l.hierarchy, e ≤ l.depth
  above : IsDepthAbove (axis.depths l.hierarchy) l.depth d

namespace Outline

/-- A member is selected after a level is rolled up to a depth and drilled to again: it remains of the hierarchy when the level is
removed, or it is of the level and its ancestor at the depth remains. -/
def Redrilled (o : Outline) (axis : Axis) (l : Level) (d : Nat) (m : Member) : Prop :=
  o.Remains axis l m ∨ (o.Holds m ∧ m.hierarchy = l.hierarchy ∧ m.depth = l.depth) ∧ o.Remains axis l (o.ancestor m d)

variable {o : Outline} {axis : Axis} {l : Level} {d : Nat} {m : Member} {keys keys' : SortKeys}

/-! ## What is rolled up -/

/-- Where a level rolls up to a depth, the ancestors there of its members remain, and what is not of the level. -/
theorem remains_iff_of_rollsUp (h : axis.RollsUp l d) :
    o.Remains axis l m ↔ (m ∈ axis.membersOf l.hierarchy ∧ m.depth ≠ l.depth) ∨
      ∃ r ∈ axis.membersOf l.hierarchy, r.depth = l.depth ∧ o.ancestor r d = m := by
  refine or_congr_right ⟨?_, ?_⟩
  · intro hm
    obtain ⟨-, above, habove, hrolled⟩ := hm
    rw [h.above.unique habove]
    exact hrolled
  · intro hrolled
    exact ⟨h.deepest, d, h.above, hrolled⟩

/-- Something selected is at the depth to which a level rolls up, and remains. -/
theorem exists_remains_of_rollsUp (h : axis.RollsUp l d) :
    ∃ a ∈ axis.membersOf l.hierarchy, a.depth = d ∧ o.Remains axis l a := by
  obtain ⟨hin, hlt, -⟩ := h.above
  obtain ⟨a, ha, rfl⟩ := Axis.mem_depths.1 hin
  exact ⟨a, ha, rfl, Or.inl ⟨ha, Nat.ne_of_lt hlt⟩⟩

/-- Nothing that remains is below the depth to which the level rolls up. -/
theorem Consistent.depth_le_of_remains (hc : Consistent o) (hax : ∀ m ∈ axis.members, o.Holds m) (h : axis.RollsUp l d)
    (hm : o.Remains axis l m) : m.depth ≤ d := by
  rcases (remains_iff_of_rollsUp h).1 hm with ⟨hm, hd⟩ | ⟨r, hr, hrd, rfl⟩
  · have hin : m.depth ∈ axis.depths l.hierarchy := Axis.mem_depths.2 ⟨m, hm, rfl⟩
    exact h.above.2.2 _ hin (Nat.lt_of_le_of_ne (h.deepest _ hin) hd)
  · have hlt := h.above.2.1
    exact Nat.le_of_eq (hc.depth_ancestor (holdsAll_membersOf hax l.hierarchy r hr).1 (by omega))

/-- What is drilled to from what remains descends from it at the depth to which the level rolled up. -/
theorem Consistent.drillsTo_iff_of_remains (hc : Consistent o) (hax : ∀ m ∈ axis.members, o.Holds m) (h : axis.RollsUp l d)
    {kept : List Member} (hkept : ∀ m, m ∈ kept ↔ o.Remains axis l m) :
    o.DrillsTo kept l m ↔ (o.Holds m ∧ m.hierarchy = l.hierarchy ∧ m.depth = l.depth) ∧ o.Remains axis l (o.ancestor m d) := by
  obtain ⟨a, -, rfl, ha⟩ := exists_remains_of_rollsUp (o := o) h
  rw [hc.drillsTo_iff_of_anchor ((hkept a).2 ha) h.above.2.1, hkept]
  intro s hs _
  exact hc.depth_le_of_remains hax h ((hkept s).1 hs)

/-! ## What is drilled to again -/

/-- Nothing that was selected is lost. -/
theorem redrilled_of_mem (hax : ∀ m ∈ axis.members, o.Holds m) (h : axis.RollsUp l d) (hm : m ∈ axis.membersOf l.hierarchy) :
    o.Redrilled axis l d m := by
  by_cases hd : m.depth = l.depth
  · obtain ⟨hheld, hh⟩ := holdsAll_membersOf hax l.hierarchy m hm
    exact Or.inr ⟨⟨hheld, hh, hd⟩, (remains_iff_of_rollsUp h).2 (Or.inr ⟨m, hm, hd, rfl⟩)⟩
  · exact Or.inl ((remains_iff_of_rollsUp h).2 (Or.inl ⟨hm, hd⟩))

/-- Nothing more is selected just when the members of the level were rolled up to selected ones, and all that descends from selected ones
at that depth was selected. -/
theorem Consistent.redrilled_iff_mem (hc : Consistent o) (hax : ∀ m ∈ axis.members, o.Holds m) (h : axis.RollsUp l d) :
    (∀ m, o.Redrilled axis l d m ↔ m ∈ axis.membersOf l.hierarchy) ↔
      (∀ m ∈ axis.membersOf l.hierarchy, m.depth = l.depth → o.ancestor m d ∈ axis.membersOf l.hierarchy) ∧
        ∀ a ∈ axis.membersOf l.hierarchy, a.depth = d → ∀ m, o.DescendsTo a l m → m ∈ axis.membersOf l.hierarchy := by
  have hlt := h.above.2.1
  constructor
  · intro hall
    refine ⟨?_, ?_⟩
    · intro m hm hd
      exact (hall _).1 (Or.inl ((remains_iff_of_rollsUp h).2 (Or.inr ⟨m, hm, hd, rfl⟩)))
    · intro a ha hd m hdesc
      obtain ⟨hm, -, hanc⟩ := hdesc
      rw [hd] at hanc
      refine (hall m).1 (Or.inr ⟨hm, ?_⟩)
      rw [hanc]
      exact (remains_iff_of_rollsUp h).2 (Or.inl ⟨ha, by omega⟩)
  · intro hclosed
    obtain ⟨hup, hdown⟩ := hclosed
    -- Rolled up to what is selected, the level leaves nothing new behind, so that it is drilled to from what was selected.
    have hremains : ∀ m, o.Remains axis l m → m ∈ axis.membersOf l.hierarchy := by
      intro m hm
      rcases (remains_iff_of_rollsUp h).1 hm with ⟨hm, -⟩ | ⟨r, hr, hrd, rfl⟩
      · exact hm
      · exact hup r hr hrd
    intro m
    refine ⟨?_, redrilled_of_mem hax h⟩
    intro hm
    rcases hm with hm | ⟨hm, hanc⟩
    · exact hremains m hm
    · have hd : (o.ancestor m d).depth = d := hc.depth_ancestor hm.1 (by omega)
      refine hdown _ (hremains _ hanc) hd m ⟨hm, ?_, ?_⟩
      · rw [hd]
        exact hlt
      · rw [hd]

/-- A level that is shown and rolls up can be removed and added again. The hierarchies stay as they are, every other operand holds what
it held, and that of the hierarchy what is rolled up and drilled to again. -/
theorem Consistent.exists_redrilled (hc : Consistent o) (hax : ∀ m ∈ axis.members, o.Holds m) (hshows : axis.Shows o.catalog l)
    (h : axis.RollsUp l d) {position : Int} (hp : position ≤ axis.hierarchies.length) (mode : HierarchizeMode)
    (hk : o.Remembers keys) (hk' : o.Remembers keys') :
    ∃ removed again, ((Mutation.remove l).run o.catalog mode keys axis).result = .ok removed ∧
      ((Mutation.add l position).run o.catalog mode keys' removed).result = .ok again ∧
      o.OperandsAre again axis.hierarchies fun n m =>
        n = l.hierarchy ∧ o.Redrilled axis l d m ∨ n ≠ l.hierarchy ∧ m ∈ axis.membersOf n := by
  have hin := hc.mem_hierarchies_of_shows hax hshows
  obtain ⟨a, -, -, ha⟩ := exists_remains_of_rollsUp (o := o) h
  obtain ⟨removed, hremoved, -, hhierarchies, hoperands⟩ := hc.exists_remove_of_remains hax hshows ⟨a, ha⟩ mode hk
  have hkept : ∀ m, m ∈ removed.membersOf l.hierarchy ↔ o.Remains axis l m := by
    intro m
    simp [hoperands.mem_membersOf hin]
  rw [← hhierarchies] at hin hp
  obtain ⟨again, hagain, -, hoperands'⟩ :=
    hc.exists_add_of_mem hoperands.holds ((hc.shows_iff hax).1 hshows).1.hasTable hin hp mode hk'
  rw [hhierarchies] at hoperands'
  refine ⟨removed, again, hremoved, hagain, hoperands'.congr ?_⟩
  intro n hn m
  rw [hc.drillsTo_iff_of_remains hax h hkept, hoperands.mem_membersOf hn, Redrilled]
  by_cases hh : n = l.hierarchy <;> simp [hh]

/-- A level of an orderly outline that an axis shows as the deepest but not the only one of its hierarchy can be removed and added again
at any position. The hierarchies stay in their order, those of others keep their members, and its own loses none; it gets back just what
it had exactly when the members of the level had their ancestors selected at the next depth above, and the members selected at that depth
all their descendants at the level. -/
theorem Orderly.redrill_exactly (ho : Orderly o) (hax : ∀ m ∈ axis.members, o.Holds m) (hshows : axis.Shows o.catalog l)
    (hdeepest : ∀ d ∈ axis.depths l.hierarchy, d ≤ l.depth) (habove : ∃ d ∈ axis.depths l.hierarchy, d < l.depth) {position : Int}
    (hp : position ≤ axis.hierarchies.length) (mode : HierarchizeMode) (hk : o.Remembers keys) (hk' : o.Remembers keys') :
    ∃ d removed again, IsDepthAbove (axis.depths l.hierarchy) l.depth d ∧
      ((Mutation.remove l).run o.catalog mode keys axis).result = .ok removed ∧
      ((Mutation.add l position).run o.catalog mode keys' removed).result = .ok again ∧
      again.hierarchies = axis.hierarchies ∧
      (∀ n, n ≠ l.hierarchy → ∀ m, m ∈ again.membersOf n ↔ m ∈ axis.membersOf n) ∧
      (∀ m ∈ axis.membersOf l.hierarchy, m ∈ again.membersOf l.hierarchy) ∧
      ((∀ m, m ∈ again.membersOf l.hierarchy ↔ m ∈ axis.membersOf l.hierarchy) ↔
        (∀ m ∈ axis.membersOf l.hierarchy, m.depth = l.depth → o.ancestor m d ∈ axis.membersOf l.hierarchy) ∧
          ∀ a ∈ axis.membersOf l.hierarchy, a.depth = d → ∀ m, o.DescendsTo a l m → m ∈ axis.membersOf l.hierarchy) := by
  have hc := ho.consistent
  obtain ⟨d, hd⟩ := exists_isDepthAbove habove
  have h : axis.RollsUp l d := ⟨hdeepest, hd⟩
  have hin := hc.mem_hierarchies_of_shows hax hshows
  obtain ⟨removed, again, hremoved, hagain, hoperands⟩ := hc.exists_redrilled hax hshows h hp mode hk hk'
  have hmem : ∀ m, m ∈ again.membersOf l.hierarchy ↔ o.Redrilled axis l d m := by
    intro m
    simp [hoperands.mem_membersOf hin]
  have hhierarchies : again.hierarchies = axis.hierarchies := by
    refine hoperands.hierarchies_eq ?_
    intro n hn
    obtain ⟨m, hm⟩ := exists_mem_membersOf hax hn
    by_cases hh : n = l.hierarchy
    · exact ⟨m, Or.inl ⟨hh, redrilled_of_mem hax h (hh ▸ hm)⟩⟩
    · exact ⟨m, Or.inr ⟨hh, hm⟩⟩
  refine ⟨d, removed, again, hd, hremoved, hagain, hhierarchies, ?_, ?_, ?_⟩
  · intro n hh m
    by_cases hn : n ∈ axis.hierarchies
    · simp [hoperands.mem_membersOf hn, hh]
    · have hn' : n ∉ again.hierarchies := hhierarchies ▸ hn
      exact iff_of_false (fun hm => hn' (Axis.mem_hierarchies_of_mem_membersOf hm))
        fun hm => hn (Axis.mem_hierarchies_of_mem_membersOf hm)
  · intro m hm
    exact (hmem m).2 (redrilled_of_mem hax h hm)
  · simp only [hmem]
    exact hc.redrilled_iff_mem hax h

/-- On the small cube departments of two families, one of which is selected, are rolled up to both and drilled to again. The other
department of the family comes in, and the other family. -/
theorem sample_redrill_exactly :
    ∃ removed again,
      ((Mutation.remove ⟨"Product", "Department", 2⟩).run sample.catalog .preserve [] sampleUneven).result = .ok removed ∧
      (sampleDrill.run sample.catalog .preserve [] removed).result = .ok again ∧
      again.hierarchies = sampleUneven.hierarchies ∧
      (∀ m ∈ sampleUneven.membersOf "Product", m ∈ again.membersOf "Product") ∧
      sampleUneven.members.map (·.name) = ["Drink", "Dairy", "Snacks", "F"] ∧
      again.members.map (·.name) = ["Drink", "Dairy", "Beverages", "Food [new]", "Snacks", "F"] := by
  obtain ⟨huneven, hshown, hdeepest, habove, hnames, hruns⟩ :
      (∀ m ∈ sampleUneven.members, sample.member? m.uniqueName = some m) ∧
      (sample.HasLevel ⟨"Product", "Department", 2⟩ ∧ 2 ∈ sampleUneven.depths "Product" ∧
        sample.isVisible ⟨"Product", "Department", 2⟩ = true) ∧
      (∀ d ∈ sampleUneven.depths "Product", d ≤ 2) ∧ (∃ d ∈ sampleUneven.depths "Product", d < 2) ∧
      sampleUneven.members.map (·.name) = ["Drink", "Dairy", "Snacks", "F"] ∧
      ((Mutation.remove ⟨"Product", "Department", 2⟩).run sample.catalog .preserve [] sampleUneven).result.toOption.any
        (fun removed => (sampleDrill.run sample.catalog .preserve [] removed).result.toOption.any fun again =>
          decide (again.members.map (·.name) = ["Drink", "Dairy", "Beverages", "Food [new]", "Snacks", "F"])) = true := by
    decide +kernel
  obtain ⟨removed', hremoved', hruns⟩ := exists_of_any_toOption hruns
  obtain ⟨again', hagain', hnames'⟩ := exists_of_any_toOption hruns
  have hk := remembers_nil sample
  obtain ⟨_, removed, again, -, hremoved, hagain, hhierarchies, -, hkept, -⟩ :=
    orderly_sample.redrill_exactly huneven ((orderly_sample.consistent.shows_iff huneven).2 hshown) hdeepest habove
      (Int.natCast_nonneg sampleUneven.hierarchies.length) .preserve hk hk
  obtain rfl := Except.ok.inj (hremoved'.symm.trans hremoved)
  obtain rfl := Except.ok.inj (hagain'.symm.trans hagain)
  exact ⟨_, _, hremoved', hagain', hhierarchies, hkept, hnames, of_decide_eq_true hnames'⟩

end Outline

end CubeAxes
