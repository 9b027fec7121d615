import CubeAxes.Proofs.Axis.Rebuilding
import CubeAxes.Proofs.Axis.Visible
import CubeAxes.Proofs.Outline.Drilling

/-!
# Edits of the selections of an axis

What adding and removing a level make of the selections of an axis (`Edit.adding_of_mem`, `Edit.adding_of_not_mem`,
`Outline.Consistent.exists_removing`). Removing a level leaves the other members of its hierarchy and, where the level was the
deepest, the ancestors of those removed at the next depth above.
-/

namespace CubeAxes

/-! ## Changing one selection -/

/-- A list into which an entry is put falls into two parts, and the entry stands between them. -/
theorem exists_insertIdx_eq {α : Type} (a : α) {l : List α} {i : Nat} (h : i ≤ l.length) :
    ∃ before after, l = before ++ after ∧ l.insertIdx i a = before ++ a :: after := by
  induction l generalizing i with
  | nil =>
    obtain rfl : i = 0 := Nat.le_zero.1 h
    exact ⟨[], [], rfl, rfl⟩
  | cons b l ih =>
    cases i with
    | zero => exact ⟨[], b :: l, rfl, rfl⟩
    | succ i =>
      obtain ⟨before, after, rfl, hins⟩ := ih (Nat.le_of_succ_le_succ h)
      refine ⟨b :: before, after, rfl, ?_⟩
      rw [List.insertIdx_succ_cons, hins]
      rfl

/-- A selection with other members, if it is of a hierarchy. -/
def Selection.change (hierarchy : String) (f : List Member → List Member) (s : Selection) : Selection :=
  if s.hierarchy = hierarchy then { s with members := f s.members } else s

namespace Selection

variable {hierarchy : String} {f : List Member → List Member} {s : Selection}

@[simp] theorem hierarchy_change (hierarchy : String) (f : List Member → List Member) (s : Selection) :
    (s.change hierarchy f).hierarchy = s.hierarchy := by
  unfold change
  split <;> rfl

theorem change_of_eq (h : s.hierarchy = hierarchy) : s.change hierarchy f = ⟨s.hierarchy, f s.members⟩ := if_pos h

theorem change_of_ne (h : s.hierarchy ≠ hierarchy) : s.change hierarchy f = s := if_neg h

/-- The members of a selection to which, if it is of a hierarchy, others are added. -/
theorem mem_change_append {ms : List Member} {m : Member} :
    m ∈ (s.change hierarchy (· ++ ms)).members ↔ m ∈ s.members ∨ s.hierarchy = hierarchy ∧ m ∈ ms := by
  by_cases h : s.hierarchy = hierarchy
  · simp [change_of_eq h, h]
  · simp [change_of_ne h, h]

/-- Changing a selection changes no hierarchy. -/
theorem map_hierarchy_change (hierarchy : String) (f : List Member → List Member) (ss : List Selection) :
    (ss.map (change hierarchy f)).map (·.hierarchy) = ss.map (·.hierarchy) := by
  rw [List.map_map]
  exact List.map_congr_left fun s _ => hierarchy_change hierarchy f s

end Selection

namespace Edit

/-- A position that is not too far, or that stands for the end, is one at which a hierarchy can be put. -/
theorem index_le {position : Int} {count : Nat} (hp : position ≤ count) :
    (if position < 0 then count else position.toNat) ≤ count := by
  split <;> omega

/-- A position beyond the hierarchies on the axis is refused before the catalog is asked anything. -/
theorem adding_of_length_lt {axis : Axis} {position : Int} (hp : (axis.selections.length : Int) < position) (cat : Catalog)
    (l : Level) : adding cat axis l position = .error (.invalidPosition position axis.selections.length) := if_pos hp

/-- A level of a hierarchy that is on the axis is drilled to. -/
theorem adding_of_mem {cat : Catalog} {axis : Axis} {l : Level} {position : Int} (hp : position ≤ axis.selections.length)
    (hin : l.hierarchy ∈ axis.hierarchies) {drilled : List Member} (hd : cat.expand (axis.membersOf l.hierarchy) l = .ok drilled) :
    ∃ notes, adding cat axis l position = .ok {
      selections := axis.selections.map (Selection.change l.hierarchy (· ++ drilled))
      notes } := by
  unfold adding
  rw [if_neg (Int.not_lt.2 hp), if_pos hin, hd]
  exact ⟨_, rfl⟩

/-- A level of a hierarchy that is not on the axis comes with all its members, at the position or at the end. -/
theorem adding_of_not_mem {cat : Catalog} {axis : Axis} {l : Level} {position : Int} (hp : position ≤ axis.selections.length)
    (hin : l.hierarchy ∉ axis.hierarchies) {ms : List Member} (hm : cat.membersOf l none = .ok ms) :
    ∃ notes, adding cat axis l position = .ok {
      selections := axis.selections.insertIdx (if position < 0 then axis.selections.length else position.toNat) ⟨l.hierarchy, ms⟩
      notes } := by
  unfold adding
  rw [if_neg (Int.not_lt.2 hp), if_neg hin, hm]
  exact ⟨_, rfl⟩

/-! ## The depth above -/

/-- The last of ascending numbers is the greatest. -/
theorem getLast?_eq_some_iff_greatest {ds : List Nat} (hasc : ds.Pairwise (· < ·)) {d : Nat} :
    ds.getLast? = some d ↔ d ∈ ds ∧ ∀ e ∈ ds, e ≤ d := by
  have hgreatest : ∀ last, ds.getLast? = some last → last ∈ ds ∧ ∀ e ∈ ds, e ≤ last := by
    intro last h
    obtain ⟨init, rfl⟩ := List.getLast?_eq_some_iff.1 h
    refine ⟨List.mem_append_right init (List.mem_singleton_self last), ?_⟩
    intro e he
    rcases List.mem_append.1 he with he | he
    · exact Nat.le_of_lt ((List.pairwise_append.1 hasc).2.2 e he last (List.mem_singleton_self last))
    · exact Nat.le_of_eq (List.mem_singleton.1 he)
  constructor
  · exact hgreatest d
  · rintro ⟨hd, hle⟩
    cases hlast : ds.getLast? with
    | none => exact absurd (List.getLast?_eq_none_iff.1 hlast) (List.ne_nil_of_mem hd)
    | some last =>
      obtain ⟨hin, hbound⟩ := hgreatest last hlast
      exact congrArg some (Nat.le_antisymm (hle last hin) (hbound d hd))

/-- The depth above a bound is the greatest that is less. -/
theorem depthAbove?_eq_some {depths : List Nat} (hasc : depths.Pairwise (· < ·)) {bound d : Nat} :
    depthAbove? depths bound = some d ↔ d ∈ depths ∧ d < bound ∧ ∀ e ∈ depths, e < bound → e ≤ d := by
  rw [depthAbove?, getLast?_eq_some_iff_greatest (hasc.filter _)]
  simp only [List.mem_filter, decide_eq_true_eq, and_imp, and_assoc]

/-- The members that take the place of those of a level that is removed from an axis. -/
def raised (cat : Catalog) (axis : Axis) (l : Level) : Except AxisError (List Member) :=
  rolledUp cat (axis.depths l.hierarchy) l.depth ((axis.membersOf l.hierarchy).filter fun m => decide (m.depth = l.depth))

end Edit

namespace Outline

variable {o : Outline}

/-- Selections of members that are held stay so when one is changed to members that are held. -/
theorem sorts_map_change {hierarchy : String} {f : List Member → List Member} {ss : List Selection} (hss : ∀ s ∈ ss, o.Sorts s)
    (hf : ∀ s ∈ ss, s.hierarchy = hierarchy → o.HoldsAll hierarchy (f s.members)) :
    ∀ s ∈ ss.map (Selection.change hierarchy f), o.Sorts s := by
  intro s' hs'
  obtain ⟨s, hs, rfl⟩ := List.mem_map.1 hs'
  by_cases h : s.hierarchy = hierarchy
  · rw [Selection.change_of_eq h, Sorts, h]
    exact hf s hs h
  · rw [Selection.change_of_ne h]
    exact hss s hs

/-! ## Removing -/

/-- The members to which those removed at a depth are rolled up: their ancestors at the depth above, if the depth was the last. -/
def RolledUp (o : Outline) (depths : List Nat) (depth : Nat) (removed : List Member) (m : Member) : Prop :=
  ∃ above, Edit.depthAbove? depths depth = some above ∧ depths.getLast? = some depth ∧ ∃ r ∈ removed, o.ancestor r above = m

/-- Rolling up members at a depth succeeds. -/
theorem Consistent.exists_rolledUp (hc : Consistent o) {depths : List Nat} (hasc : depths.Pairwise (· < ·)) {depth : Nat}
    {removed : List Member} (hr : ∀ m ∈ removed, o.Holds m ∧ m.depth = depth) :
    ∃ ms, Edit.rolledUp o.catalog depths depth removed = .ok ms ∧ ∀ m, m ∈ ms ↔ o.RolledUp depths depth removed m := by
  unfold Edit.rolledUp RolledUp
  cases ha : Edit.depthAbove? depths depth with
  | none =>
    refine ⟨[], rfl, fun m => ⟨fun h => absurd h List.not_mem_nil, ?_⟩⟩
    rintro ⟨above, h, -⟩
    nomatch h
  | some above =>
    by_cases hlast : depths.getLast? = some depth
    · have hle : ∀ m ∈ removed, above ≤ m.depth := by
        intro m hm
        rw [(hr m hm).2]
        exact Nat.le_of_lt ((Edit.depthAbove?_eq_some hasc).1 ha).2.1
      refine ⟨_, by simp only [if_pos hlast]; exact hc.ancestors_eq (fun m hm => (hr m hm).1) hle, fun m => ?_⟩
      rw [List.mem_map]
      constructor
      · rintro ⟨r, hmem, rfl⟩
        exact ⟨above, rfl, hlast, r, hmem, rfl⟩
      · rintro ⟨above', he, -, r, hmem, rfl⟩
        obtain rfl := Option.some.inj he
        exact ⟨r, hmem, rfl⟩
    · refine ⟨[], by simp only [if_neg hlast], fun m => ⟨fun h => absurd h List.not_mem_nil, ?_⟩⟩
      rintro ⟨-, -, h, -⟩
      exact absurd h hlast

/-- A member takes the place of some of a level that is removed from an axis: these are rolled up to it. -/
def RaisedTo (o : Outline) (axis : Axis) (l : Level) (m : Member) : Prop :=
  o.RolledUp (axis.depths l.hierarchy) l.depth ((axis.membersOf l.hierarchy).filter fun m => decide (m.depth = l.depth)) m

/-- Members are found to take the place of those of a level, wherever those are held. -/
theorem Consistent.exists_raised (hc : Consistent o) {axis : Axis} {l : Level}
    (hheld : o.HoldsAll l.hierarchy (axis.membersOf l.hierarchy)) :
    ∃ ms, Edit.raised o.catalog axis l = .ok ms ∧ ∀ m, m ∈ ms ↔ o.RaisedTo axis l m := by
  refine hc.exists_rolledUp (Axis.pairwise_depths axis l.hierarchy) ?_
  intro m hm
  obtain ⟨hm, hd⟩ := List.mem_filter.1 hm
  exact ⟨(hheld m hm).1, of_decide_eq_true hd⟩

/-- The selections from which a level was removed, `left` being what is left of its hierarchy. -/
def without (hierarchy : String) (left : List Member) (ss : List Selection) : List Selection :=
  ss.filterMap fun s =>
    if s.hierarchy = hierarchy then
      if left = [] then none else some { s with members := distinctMembers left }
    else some s

/-- Removing a hierarchy leaves the selections of the others as they are. -/
theorem without_of_forall_ne {hierarchy : String} {left : List Member} {ss : List Selection}
    (h : ∀ s ∈ ss, s.hierarchy ≠ hierarchy) : without hierarchy left ss = ss := by
  unfold without
  have hself : ∀ s ∈ ss, (if s.hierarchy = hierarchy then
      if left = [] then none else some { s with members := distinctMembers left } else some s) = some s :=
    fun s hs => if_neg (h s hs)
  rw [List.filterMap_congr hself, List.filterMap_some]

/-- Where something is left of the hierarchy, it takes the place of what was there. -/
theorem without_of_ne_nil {hierarchy : String} {left : List Member} (h : left ≠ []) (ss : List Selection) :
    without hierarchy left ss = ss.map (Selection.change hierarchy fun _ => distinctMembers left) := by
  unfold without
  rw [← List.filterMap_eq_map]
  refine List.filterMap_congr fun s _ => ?_
  rw [Function.comp_apply, if_neg h]
  by_cases hs : s.hierarchy = hierarchy
  · rw [if_pos hs, Selection.change_of_eq hs]
  · rw [if_neg hs, Selection.change_of_ne hs]

/-- Where nothing is left of the hierarchy, its selection goes. -/
theorem without_nil (hierarchy : String) (ss : List Selection) :
    without hierarchy [] ss = ss.filter fun s => decide (s.hierarchy ≠ hierarchy) := by
  unfold without
  rw [← List.filterMap_eq_filter]
  refine List.filterMap_congr fun s _ => ?_
  by_cases hs : s.hierarchy = hierarchy <;> simp [hs, Option.guard]

/-- A hierarchy of which nothing is left goes without a trace. -/
theorem without_nil_middle {hierarchy : String} {before after : List Selection} (s : Selection) (hs : s.hierarchy = hierarchy)
    (h : ∀ t ∈ before ++ after, t.hierarchy ≠ hierarchy) :
    without hierarchy [] (before ++ s :: after) = before ++ after := by
  have hb : without hierarchy [] before = before := without_of_forall_ne fun t ht => h t (List.mem_append_left after ht)
  have ha : without hierarchy [] after = after := without_of_forall_ne fun t ht => h t (List.mem_append_right before ht)
  rw [without_nil] at hb ha ⊢
  rw [List.filter_append, List.filter_cons_of_neg (by simp [hs]), hb, ha]

/-- A member is left of a hierarchy when a level of it is removed: it is at another depth, or one removed is rolled up to it. -/
def Leaves (o : Outline) (axis : Axis) (l : Level) (m : Member) : Prop :=
  (m ∈ axis.membersOf l.hierarchy ∧ m.depth ≠ l.depth) ∨
    o.RolledUp (axis.depths l.hierarchy) l.depth ((axis.membersOf l.hierarchy).filter fun m => decide (m.depth = l.depth)) m

/-- Removing a level that the catalog shows and that has members on the axis succeeds. -/
theorem Consistent.exists_removing (hc : Consistent o) {axis : Axis} {l : Level} (hl : o.HasLevel l) (hv : o.isVisible l = true)
    (hheld : o.HoldsAll l.hierarchy (axis.membersOf l.hierarchy)) (hd : l.depth ∈ axis.depths l.hierarchy) :
    ∃ left, (∃ notes, Edit.removing o.catalog axis l = .ok { selections := without l.hierarchy left axis.selections, notes }) ∧
      ∀ m, m ∈ left ↔ o.Leaves axis l m := by
  obtain ⟨m₀, hm₀, -⟩ := Axis.mem_depths.1 hd
  obtain ⟨visible, hvisible, hmem, -⟩ := hc.exists_visibleLevelsOf (List.ne_nil_of_mem hm₀) hheld
  have hin : l ∈ visible := (hmem l).2 ⟨hl, rfl, hd, hv⟩
  obtain ⟨ups, hups, hupsmem⟩ := hc.exists_raised hheld
  refine ⟨(axis.membersOf l.hierarchy).filter (fun m => !decide (m.depth = l.depth)) ++ ups, ?_, fun m => ?_⟩
  · unfold Edit.raised at hups
    unfold Edit.removing
    rw [hvisible]
    simp only [Except.mapError, ok_bind, if_pos hin, List.partition_eq_filter_filter, hups]
    exact ⟨_, rfl⟩
  · rw [List.mem_append, hupsmem, List.mem_filter, Leaves, RaisedTo]
    simp only [Bool.not_eq_true', decide_eq_false_iff_not, ne_eq]

end Outline

end CubeAxes
