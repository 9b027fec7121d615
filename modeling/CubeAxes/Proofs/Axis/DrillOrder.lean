import CubeAxes.Proofs.Axis.Adding
import CubeAxes.Proofs.Axis.Appending
import CubeAxes.Proofs.Axis.Completeness

/-!
# The order of drilling

Two levels of a hierarchy that is on an axis may be filled in in either order (`Outline.Orderly.drills_in_either_order`), as long as
something selected is above both and nothing is between them. Going down, the second drill starts from what the first brought in; going
up, both start from what was there. The operands of both axes are told by what both drills bring in, and that is the same either way
(`Outline.Consistent.drillsTo_through`, `Outline.Consistent.drillsTo_beside`).
-/

namespace CubeAxes

namespace Outline

variable {o : Outline} {axis : Axis} {first second : Level} {keys keys' : SortKeys}

/-- Two drills of a hierarchy that is on the axis, one after the other, leave every operand what it held, and that of the hierarchy also
what comes of both: of the first from what was selected, of the second from what is selected in between. -/
theorem Consistent.exists_add_add (hc : Consistent o) (hax : ∀ m ∈ axis.members, o.Holds m) (hfirst : o.HasTable first)
    (hsecond : o.HasTable second) (hh : second.hierarchy = first.hierarchy) (hin : first.hierarchy ∈ axis.hierarchies) {p q : Int}
    (hp : p ≤ axis.hierarchies.length) (hq : q ≤ axis.hierarchies.length) (mode : HierarchizeMode) (hk : o.Remembers keys)
    (hk' : o.Remembers keys') :
    ∃ mid filled, ((Mutation.add first p).run o.catalog mode keys axis).result = .ok mid ∧
      ((Mutation.add second q).run o.catalog mode keys' mid).result = .ok filled ∧
      filled.hierarchize = mode.apply axis.hierarchize ∧
      (∀ m, m ∈ mid.membersOf first.hierarchy ↔
        m ∈ axis.membersOf first.hierarchy ∨ o.DrillsTo (axis.membersOf first.hierarchy) first m) ∧
      o.OperandsAre filled axis.hierarchies fun n m => m ∈ axis.membersOf n ∨ n = first.hierarchy ∧
        (o.DrillsTo (axis.membersOf first.hierarchy) first m ∨ o.DrillsTo (mid.membersOf first.hierarchy) second m) := by
  obtain ⟨mid, hmid, hz, hoperands⟩ := hc.exists_add_of_mem hax hfirst hin hp mode hk
  have hhierarchies : mid.hierarchies = axis.hierarchies := by
    refine hoperands.hierarchies_eq ?_
    intro n hn
    obtain ⟨m, hm⟩ := exists_mem_membersOf hax hn
    exact ⟨m, Or.inl hm⟩
  have hin' : second.hierarchy ∈ mid.hierarchies := by
    rw [hhierarchies, hh]
    exact hin
  rw [← hhierarchies] at hq
  obtain ⟨filled, hfilled, hz', hoperands'⟩ := hc.exists_add_of_mem hoperands.holds hsecond hin' hq mode hk'
  rw [hhierarchies, hh] at hoperands'
  refine ⟨mid, filled, hmid, hfilled, ?_, ?_, hoperands'.congr ?_⟩
  · rw [hz', hz, HierarchizeMode.apply_apply]
  · intro m
    simp [hoperands.mem_membersOf hin]
  · intro n hn m
    rw [hoperands.mem_membersOf hn, or_assoc, ← and_or_left]

/-- Filling in an upper level and then a lower one, or the lower one and then the upper, comes to one axis, node for node, wherever the
levels are asked to stand and whatever sort keys are remembered. Something selected has to be above both levels, and nothing at the upper
one or between the two; below them may be anything, and members may be without descendants. -/
theorem Orderly.drills_in_either_order (ho : Orderly o) (hax : ∀ m ∈ axis.members, o.Holds m) {upper lower : Level}
    (hupper : o.HasLevel upper) (hlower : o.HasLevel lower) (hh : lower.hierarchy = upper.hierarchy) (hlt : upper.depth < lower.depth)
    (habove : ∃ m ∈ axis.membersOf upper.hierarchy, m.depth < upper.depth)
    (hbetween : ∀ m ∈ axis.membersOf upper.hierarchy, m.depth < upper.depth ∨ lower.depth ≤ m.depth) {p q r s : Int}
    (hp : p ≤ axis.hierarchies.length) (hq : q ≤ axis.hierarchies.length) (hr : r ≤ axis.hierarchies.length)
    (hs : s ≤ axis.hierarchies.length) (mode : HierarchizeMode) {k₁ k₂ k₃ k₄ : SortKeys} (hk₁ : o.Remembers k₁)
    (hk₂ : o.Remembers k₂) (hk₃ : o.Remembers k₃) (hk₄ : o.Remembers k₄) :
    ∃ down up filled,
      ((Mutation.add upper p).run o.catalog mode k₁ axis).result = .ok down ∧
      ((Mutation.add lower q).run o.catalog mode k₂ down).result = .ok filled ∧
      ((Mutation.add lower r).run o.catalog mode k₃ axis).result = .ok up ∧
      ((Mutation.add upper s).run o.catalog mode k₄ up).result = .ok filled := by
  have hc := ho.consistent
  have hin : upper.hierarchy ∈ axis.hierarchies := by
    obtain ⟨m, hm, -⟩ := habove
    exact Axis.mem_hierarchies_of_mem_membersOf hm
  obtain ⟨down, filled, hdown, hfilled, hz, hmem, hoperands⟩ :=
    hc.exists_add_add hax hupper.hasTable hlower.hasTable hh hin hp hq mode hk₁ hk₂
  obtain ⟨up, filled', hup, hfilled', hz', hmem', hoperands'⟩ :=
    hc.exists_add_add hax hlower.hasTable hupper.hasTable hh.symm (hh ▸ hin) hr hs mode hk₃ hk₄
  have hheld := holdsAll_membersOf hax upper.hierarchy
  have hgap : ∀ m ∈ axis.membersOf upper.hierarchy, m.depth < lower.depth → m.depth < upper.depth := by
    intro m hm hmlt
    exact (hbetween m hm).resolve_right (Nat.not_le.2 hmlt)
  rw [hh] at hmem' hoperands'
  have hthrough := hc.drillsTo_through hheld hh hlt habove hgap hmem
  have hbeside := hc.drillsTo_beside (hh ▸ hheld) (Nat.le_of_lt hlt) habove hmem'
  -- The operands on both ways hold what both drills bring in. The drill to the lower level is moved past the one to the upper level on
  -- the way down, and the other way round on the way up.
  have hsame : filled = filled' := by
    refine hoperands.unique hc (hoperands'.congr ?_) (hz.trans hz'.symm)
    intro n _ m
    rw [hthrough, hbeside, or_comm (a := o.DrillsTo _ lower m)]
  refine ⟨down, up, filled, hdown, hfilled, hup, ?_⟩
  rw [hsame]
  exact hfilled'

/-- On the cube of stores, where only one of the states of the two countries has cities and one of these is already there, states and
cities are filled in in either order. -/
theorem sampleStores_drills_in_either_order :
    ∃ axis down up filled, storeAxis ["[Store].[Canada]", "[Store].[USA]", "[Store].[USA].[California].[Fresno]"] = .ok axis ∧
      ((Mutation.add sampleStates 0).run sampleStores.catalog .preserve [] axis).result = .ok down ∧
      ((Mutation.add sampleCities 1).run sampleStores.catalog .preserve [] down).result = .ok filled ∧
      ((Mutation.add sampleCities (-1)).run sampleStores.catalog .preserve [] axis).result = .ok up ∧
      ((Mutation.add sampleStates 0).run sampleStores.catalog .preserve [] up).result = .ok filled ∧
      up.members.map (·.name) = ["Canada", "USA", "Fresno", "Oakland"] ∧
      filled.members.map (·.name) = ["Canada", "Alberta", "Manitoba", "USA", "California", "Fresno", "Oakland", "Oregon"] := by
  obtain ⟨hstates, hcities, hruns⟩ : sampleStores.HasLevel sampleStates ∧ sampleStores.HasLevel sampleCities ∧
      (storeAxis ["[Store].[Canada]", "[Store].[USA]", "[Store].[USA].[California].[Fresno]"]).toOption.any (fun axis =>
        decide (∀ m ∈ axis.members, sampleStores.member? m.uniqueName = some m) && decide (axis.hierarchies.length = 1) &&
        decide (∃ m ∈ axis.membersOf "Store", m.depth < 1) && decide (∀ m ∈ axis.membersOf "Store", m.depth < 1 ∨ 2 ≤ m.depth) &&
        ((Mutation.add sampleCities (-1)).run sampleStores.catalog .preserve [] axis).result.toOption.any fun up =>
          decide (up.members.map (·.name) = ["Canada", "USA", "Fresno", "Oakland"]) &&
          ((Mutation.add sampleStates 0).run sampleStores.catalog .preserve [] up).result.toOption.any fun filled =>
            decide (filled.members.map (·.name) =
              ["Canada", "Alberta", "Manitoba", "USA", "California", "Fresno", "Oakland", "Oregon"])) = true := by
    decide +kernel
  obtain ⟨axis, haxis, hruns⟩ := exists_of_any_toOption hruns
  simp only [Bool.and_eq_true, decide_eq_true_eq] at hruns
  obtain ⟨⟨⟨⟨hheld, hlength⟩, habove⟩, hbetween⟩, hup⟩ := hruns
  obtain ⟨up, hup, hnames⟩ := exists_of_any_toOption hup
  simp only [Bool.and_eq_true, decide_eq_true_eq] at hnames
  obtain ⟨hnames, hfilled⟩ := hnames
  obtain ⟨filled, hfilled, hnames'⟩ := exists_of_any_toOption hfilled
  have hk := remembers_nil sampleStores
  obtain ⟨down, up', filled', hdown, hdown', hup', hfilled'⟩ :=
    orderly_sampleStores.drills_in_either_order hheld hstates hcities rfl (by decide) habove hbetween (p := 0) (q := 1) (r := -1)
      (s := 0) (by omega) (by omega) (by omega) (by omega) .preserve hk hk hk hk
  obtain rfl := Except.ok.inj (hup.symm.trans hup')
  obtain rfl := Except.ok.inj (hfilled.symm.trans hfilled')
  exact ⟨axis, down, up, filled, haxis, hdown, hdown', hup, hfilled, hnames, of_decide_eq_true hnames'⟩

end Outline

end CubeAxes
