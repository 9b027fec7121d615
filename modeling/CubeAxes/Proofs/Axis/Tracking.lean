import CubeAxes.Proofs.Axis.Membership
import CubeAxes.Proofs.Axis.Profile

/-!
# Mutations track profiles

A mutation moves the profile of an axis in one way only (`Outline.Moves`): adding a level adds its depth to the entry of its hierarchy,
or a new entry, if it brings in a member; removing one takes its depth away; placing levels starts anew. Rolling members up brings in no
depth, since it ends at a depth that is there. So at each point of a run of mutations the axis shows the levels of the profile that the
run has led to (`Outline.Orderly.tracks`). Whether the catalog shows a level decides nothing but whether it is listed.
-/

namespace CubeAxes

namespace Profile

/-- Changing a hierarchy that is represented to depths some of which are left leaves no entry out. -/
theorem represented_change {hierarchy : String} {f : Finset Nat → Finset Nat} {p : Profile} (hp : ∀ e ∈ p, e.2 ≠ ∅)
    (hf : ∀ ds, ds ≠ ∅ → f ds ≠ ∅) : (p.change hierarchy f).represented = p.change hierarchy f := by
  refine represented_of_forall_ne ?_
  intro e he
  obtain ⟨e, hmem, rfl⟩ := List.mem_map.1 he
  split
  · exact hf e.2 (hp e hmem)
  · exact hp e hmem

/-- An entry that is put among others that are represented is left out if it is at no depth. -/
theorem represented_insertIdx {p : Profile} (hp : ∀ e ∈ p, e.2 ≠ ∅) (e : String × Finset Nat) {i : Nat} (hi : i ≤ p.length) :
    represented (p.insertIdx i e) = if e.2 = ∅ then p else p.insertIdx i e := by
  obtain ⟨before, after, rfl, hins⟩ := exists_insertIdx_eq e hi
  have hsame := represented_of_forall_ne hp
  unfold represented at hsame ⊢
  rw [List.filter_append] at hsame
  rw [hins, List.filter_append, List.filter_cons]
  by_cases he : e.2 = ∅
  · simpa [he] using hsame
  · have hb : before.filter (fun e => decide (e.2 ≠ ∅)) = before :=
      List.filter_eq_self.2 fun d hd => decide_eq_true (hp d (List.mem_append_left after hd))
    have ha : after.filter (fun e => decide (e.2 ≠ ∅)) = after :=
      List.filter_eq_self.2 fun d hd => decide_eq_true (hp d (List.mem_append_right before hd))
    rw [hb, ha, if_neg he, if_pos (decide_eq_true he)]

end Profile

namespace Outline

/-- The depths of the levels of a hierarchy among several at which the outline has members. -/
def filledDepths (o : Outline) (hierarchy : String) (levels : List Level) : Finset Nat :=
  ((depthsIn hierarchy levels).filter fun d => decide (o.rows hierarchy d ≠ [])).toFinset

/-- How a mutation that succeeds moves the profile of an axis. -/
def Moves (o : Outline) (axis : Axis) : Mutation → Axis → Prop
  | .add l position, axis' =>
    position ≤ axis.profile.length ∧ ∃ brought, Edit.brought o.catalog axis l = .ok brought ∧
      axis'.profile =
        if brought = [] then axis.profile
        else if l.hierarchy ∈ axis.hierarchies then axis.profile.change l.hierarchy (insert l.depth)
        else axis.profile.insertIdx (if position < 0 then axis.profile.length else position.toNat) (l.hierarchy, {l.depth})
  | .remove l, axis' =>
    axis'.profile = (axis.profile.change l.hierarchy (·.erase l.depth)).represented ∧
      ∃ ds, (l.hierarchy, ds) ∈ axis.profile ∧ l.depth ∈ ds ∧
        ∀ above ∈ ds, above < l.depth → (∀ d ∈ ds, d ≤ above ∨ d = l.depth) →
          ∀ m ∈ axis.members, m.hierarchy = l.hierarchy → m.depth = l.depth → o.ancestor m above ∈ axis'.members
  | .place levels, axis' =>
    axis'.profile = Profile.represented
      ((distinctOn id (levels.map (·.hierarchy))).map fun h => (h, o.filledDepths h levels))

/-- An axis comes of another by mutations each of which succeeds, in any mode and with any sort keys that are remembered right. -/
inductive Runs (o : Outline) : Axis → List Mutation → Axis → Prop
  | nil (axis : Axis) : Runs o axis [] axis
  | snoc {axis mid axis' : Axis} {ms : List Mutation} {m : Mutation} {mode : HierarchizeMode} {keys : SortKeys} :
      Runs o axis ms mid → o.Remembers keys → (m.run o.catalog mode keys mid).result = .ok axis' → Runs o axis (ms ++ [m]) axis'

variable {o : Outline}

/-! ## Adding -/

/-- Adding a level adds its depth to its hierarchy, if it brings in a member. -/
theorem Consistent.moves_add (hc : Consistent o) {axis axis' : Axis} (hax : ∀ m ∈ axis.members, o.Holds m) {l : Level} {position : Int}
    {mode : HierarchizeMode} {keys : SortKeys} (hk : o.Remembers keys)
    (h : ((Mutation.add l position).run o.catalog mode keys axis).result = .ok axis') : o.Moves axis (.add l position) axis' := by
  obtain ⟨edit, he, hprofile⟩ := hc.exists_profile_of_run hax hk h
  obtain ⟨hp, hcases⟩ := Edit.cases_of_adding he
  rw [← Axis.length_profile] at hp
  refine ⟨hp, ?_⟩
  have hne : ∀ e ∈ axis.profile, e.2 ≠ ∅ := fun e => Axis.ne_empty_of_mem_profile
  rcases hcases with ⟨hin, drilled, hd, heq⟩ | ⟨hin, ms, hms, heq⟩
  · refine ⟨drilled, (Edit.brought_of_mem hin).trans hd, ?_⟩
    rw [hprofile, heq, map_entry_change (g := fun ds => ds ∪ depthSet drilled) fun s _ _ => depthSet_append _ _, ← Axis.profile_eq,
      if_pos hin]
    by_cases hnil : drilled = []
    · rw [if_pos hnil, hnil, depthSet_nil, Profile.change_of_forall_eq fun e _ _ => Finset.union_empty e.2,
        Profile.represented_of_forall_ne hne]
    · have hdepth := depthSet_of_forall_eq hnil fun m hm => (hc.spec_of_expand (holdsAll_membersOf hax l.hierarchy) hd m hm).2.2
      have hinsert : (fun ds : Finset Nat => ds ∪ depthSet drilled) = insert l.depth := by
        funext ds
        rw [hdepth, Finset.union_comm]
        rfl
      rw [if_neg hnil, hinsert, Profile.represented_change hne fun ds _ => Finset.insert_ne_empty l.depth ds]
  · refine ⟨ms, (Edit.brought_of_not_mem hin).trans hms, ?_⟩
    have hindex : (if position < 0 then axis.selections.length else position.toNat) ≤ axis.profile.length := by
      rw [Axis.length_profile] at hp ⊢
      exact Edit.index_le hp
    rw [hprofile, heq, List.map_insertIdx, ← Axis.profile_eq, Profile.represented_insertIdx hne _ hindex, if_neg hin,
      Axis.length_profile, Selection.snd_entry]
    by_cases hnil : ms = []
    · rw [if_pos hnil, if_pos (depthSet_eq_empty.2 hnil)]
    · have hrows : ∀ m ∈ ms, m.depth = l.depth := by
        intro m hm
        rw [eq_rows_of_membersOf hms] at hm
        exact (hc.mem_rows.1 hm).2.2
      rw [if_neg hnil, if_neg (mt depthSet_eq_empty.1 hnil), Selection.entry, depthSet_of_forall_eq hnil hrows]

/-! ## Removing -/

/-- What is left of a hierarchy when a level is removed stands at its other depths: it is rolled up to one of them. -/
theorem Consistent.depthSet_left (hc : Consistent o) {axis : Axis} (hax : ∀ m ∈ axis.members, o.Holds m) {l : Level}
    {left : List Member} (hleft : ∀ m, m ∈ left ↔ o.Leaves axis l m) :
    depthSet left = (depthSet (axis.membersOf l.hierarchy)).erase l.depth := by
  ext d
  simp only [mem_depthSet, Finset.mem_erase, hleft]
  constructor
  · rintro ⟨m, ⟨hm, hd⟩ | ⟨above, habove, -, r, hr, rfl⟩, rfl⟩
    · exact ⟨hd, m, hm, rfl⟩
    · obtain ⟨hin, hlt, -⟩ := (Edit.depthAbove?_eq_some (Axis.pairwise_depths axis l.hierarchy)).1 habove
      obtain ⟨hr, hrd⟩ := List.mem_filter.1 hr
      have hdepth : (o.ancestor r above).depth = above := by
        refine hc.depth_ancestor (holdsAll_membersOf hax l.hierarchy r hr).1 ?_
        rw [of_decide_eq_true hrd]
        exact Nat.le_of_lt hlt
      rw [hdepth]
      exact ⟨Nat.ne_of_lt hlt, Axis.mem_depths.1 hin⟩
  · rintro ⟨hd, m, hm, rfl⟩
    exact ⟨m, Or.inl ⟨hm, hd⟩, rfl⟩

/-- The members at the deepest depth of a hierarchy are rolled up to the next one. -/
theorem rolledUp_of_deepest {axis : Axis} {l : Level} {above : Nat} (habove : above ∈ axis.depths l.hierarchy) (hlt : above < l.depth)
    (hnext : ∀ d ∈ axis.depths l.hierarchy, d ≤ above ∨ d = l.depth) {m : Member} (hm : m ∈ axis.membersOf l.hierarchy)
    (hd : m.depth = l.depth) : o.Leaves axis l (o.ancestor m above) := by
  have hasc := Axis.pairwise_depths axis l.hierarchy
  have hlast : (axis.depths l.hierarchy).getLast? = some l.depth := by
    refine (Edit.getLast?_eq_some_iff_greatest hasc).2 ⟨Axis.mem_depths.2 ⟨m, hm, hd⟩, ?_⟩
    intro d hd
    rcases hnext d hd with hle | rfl <;> omega
  have hdepthAbove : Edit.depthAbove? (axis.depths l.hierarchy) l.depth = some above := by
    refine (Edit.depthAbove?_eq_some hasc).2 ⟨habove, hlt, ?_⟩
    intro d hd hbound
    rcases hnext d hd with hle | rfl
    · exact hle
    · exact absurd hbound (Nat.lt_irrefl _)
  exact Or.inr ⟨above, hdepthAbove, hlast, m, List.mem_filter.2 ⟨hm, decide_eq_true hd⟩, rfl⟩

/-- Removing a level takes its depth away from its hierarchy, and nothing else. -/
theorem Consistent.moves_remove (hc : Consistent o) {axis axis' : Axis} (hax : ∀ m ∈ axis.members, o.Holds m) {l : Level}
    {mode : HierarchizeMode} {keys : SortKeys} (hk : o.Remembers keys)
    (h : ((Mutation.remove l).run o.catalog mode keys axis).result = .ok axis') : o.Moves axis (.remove l) axis' := by
  obtain ⟨edit, he, hprofile⟩ := hc.exists_profile_of_run hax hk h
  obtain ⟨left, heq, hdepth, hheld, hleft⟩ := hc.exists_left_of_removing hax he
  refine ⟨?_, (axis.depths l.hierarchy).toFinset, ?_, List.mem_toFinset.2 hdepth, ?_⟩
  · have hdistinct : depthSet (distinctMembers left) = depthSet left := depthSet_congr fun m =>
      mem_distinctMembers fun n hn => (hheld n hn).1
    rw [hprofile, heq, represented_map_entry_without hdistinct, ← Axis.profile_eq]
    refine congrArg Profile.represented (Profile.change_congr ?_)
    intro e hmem hh
    rw [(Axis.mem_profile.1 hmem).2, hh, hc.depthSet_left hax hleft]
  · obtain ⟨m, hm, -⟩ := Axis.mem_depths.1 hdepth
    obtain ⟨hmem, hmh⟩ := Axis.mem_of_mem_membersOf hm
    exact Axis.mem_profile.2 ⟨Axis.mem_hierarchies.2 ⟨m, hmem, hmh⟩, Axis.toFinset_depths axis l.hierarchy⟩
  · intro above habove hlt hnext m hm hmh hd
    simp only [List.mem_toFinset] at habove hnext
    refine ((hc.mem_members_of_remove hax hk h).2 _).2 (Or.inr ?_)
    exact rolledUp_of_deepest habove hlt hnext ((mem_membersOf hax).2 ⟨hm, hmh⟩) hd

/-! ## Placing -/

/-- Placing levels leaves their hierarchies, at those of their depths at which there are members. -/
theorem Consistent.moves_place (hc : Consistent o) {axis axis' : Axis} (hax : ∀ m ∈ axis.members, o.Holds m) {levels : List Level}
    {mode : HierarchizeMode} {keys : SortKeys} (hk : o.Remembers keys)
    (h : ((Mutation.place levels).run o.catalog mode keys axis).result = .ok axis') : o.Moves axis (.place levels) axis' := by
  obtain ⟨edit, he, hprofile⟩ := hc.exists_profile_of_run hax hk h
  obtain ⟨hhierarchies, hfilled⟩ := Edit.spec_of_placing he
  have hentry : ∀ s ∈ edit.selections, s.entry = (s.hierarchy, o.filledDepths s.hierarchy levels) := by
    intro s hs
    have hin : s.hierarchy ∈ levels.map (·.hierarchy) := by
      rw [← mem_distinctOn_id, ← hhierarchies]
      exact List.mem_map_of_mem hs
    have hband := hc.mem_filled (List.mem_map.1 hin) (hfilled s hs)
    refine congrArg (Prod.mk s.hierarchy) ?_
    ext d
    simp only [filledDepths, mem_depthSet, hband, List.mem_toFinset, List.mem_filter, decide_eq_true_eq, ne_eq,
      List.eq_nil_iff_forall_not_mem, hc.mem_rows, not_forall, not_not]
    constructor
    · rintro ⟨m, ⟨hheld, hh, hd⟩, rfl⟩
      exact ⟨hd, m, hheld, hh, rfl⟩
    · rintro ⟨hd, m, hheld, hh, rfl⟩
      exact ⟨m, ⟨hheld, hh, hd⟩, rfl⟩
  rw [Moves, hprofile, ← hhierarchies, List.map_map, List.map_congr_left hentry]
  rfl

/-! ## Runs -/

/-- A mutation that succeeds moves the profile. -/
theorem Consistent.moves_of_run (hc : Consistent o) {axis axis' : Axis} (hax : ∀ m ∈ axis.members, o.Holds m) {m : Mutation}
    {mode : HierarchizeMode} {keys : SortKeys} (hk : o.Remembers keys) (h : (m.run o.catalog mode keys axis).result = .ok axis') :
    o.Moves axis m axis' := by
  cases m with
  | add l position => exact hc.moves_add hax hk h
  | remove l => exact hc.moves_remove hax hk h
  | place levels => exact hc.moves_place hax hk h

/-- A run of mutations leaves members that are held. -/
theorem Runs.holds (hc : Consistent o) {axis axis' : Axis} {ms : List Mutation} (h : o.Runs axis ms axis')
    (hax : ∀ m ∈ axis.members, o.Holds m) : ∀ m ∈ axis'.members, o.Holds m := by
  induction h with
  | nil => exact hax
  | snoc _ hk hrun ih => exact hc.holds_of_run ih hk hrun

/-- A level is not added at a position beyond the entries of the profile, those that show no level among them. -/
theorem add_eq_error_of_length_lt {axis : Axis} {l : Level} {position : Int} (h : (axis.profile.length : Int) < position)
    (mode : HierarchizeMode) (keys : SortKeys) :
    ((Mutation.add l position).run o.catalog mode keys axis).result = .error (.invalidPosition position axis.profile.length) := by
  rw [Axis.length_profile] at h ⊢
  rw [Mutation.run, Mutation.edit, Edit.adding_of_length_lt h]

/-- At each point of a run of mutations that succeed, each depth of the profile has its level, and the axis shows those of them that
the catalog shows, entry by entry and by depth; the next mutation that succeeds moves the profile; and a position beyond the entries is
refused. -/
theorem Orderly.tracks (ho : Orderly o) {axis mid : Axis} (hax : ∀ m ∈ axis.members, o.Holds m) {done : List Mutation}
    (hruns : o.Runs axis done mid) :
    (∀ e ∈ mid.profile, ∀ d ∈ e.2, ∃ l, o.catalog.levelAt? e.1 d = some l ∧ o.HasLevel l ∧ l.hierarchy = e.1 ∧ l.depth = d) ∧
      mid.visibleLevels o.catalog = .ok (mid.profile.visible o.catalog) ∧
      (∀ m mode keys axis', o.Remembers keys → (m.run o.catalog mode keys mid).result = .ok axis' → o.Moves mid m axis') ∧
      ∀ l position mode keys, (mid.profile.length : Int) < position →
        ((Mutation.add l position).run o.catalog mode keys mid).result = .error (.invalidPosition position mid.profile.length) := by
  have hc := ho.consistent
  have hmid := hruns.holds hc hax
  refine ⟨?_, hc.visibleLevels_eq hmid, ?_, ?_⟩
  · intro e he d hd
    exact hc.exists_levelAt? hmid he hd
  · intro m mode keys axis' hk hrun
    exact hc.moves_of_run hmid hk hrun
  · intro l position mode keys hlt
    exact add_eq_error_of_length_lt hlt mode keys

/-- The small cube with its families hidden. -/
def sampleHidden : Outline := (sample.setLevelVisible "Product" "Family" false).toOption.getD sample

/-- The small cube with its families hidden is orderly. -/
theorem orderly_sampleHidden : Orderly sampleHidden := by
  have hsome : (sample.setLevelVisible "Product" "Family" false).toOption.isSome = true := by decide +kernel
  cases h : sample.setLevelVisible "Product" "Family" false with
  | error e =>
    rw [h] at hsome
    nomatch hsome
  | ok o =>
    rw [sampleHidden, h]
    exact orderly_sample.setLevelVisible h

/-- Families and departments. -/
def sampleFamilies : Level := ⟨"Product", "Family", 1⟩

def sampleDepartments : Level := ⟨"Product", "Department", 2⟩

/-- Where families are hidden, departments are rolled up to them all the same, and then nothing is shown. -/
theorem sample_tracks :
    ∃ mid axis', sampleHidden.Runs {} [.place [sampleFamilies, sampleDepartments]] mid ∧ mid.profile = [("Product", {1, 2})] ∧
      mid.profile.visible sampleHidden.catalog = [sampleDepartments] ∧
      ((Mutation.remove sampleDepartments).run sampleHidden.catalog .preserve [] mid).result = .ok axis' ∧
      sampleHidden.Moves mid (.remove sampleDepartments) axis' ∧ axis'.profile = [("Product", {1})] ∧
      axis'.profile.visible sampleHidden.catalog = [] := by
  have hruns : ((Mutation.place [sampleFamilies, sampleDepartments]).run sampleHidden.catalog .preserve [] {}).result.toOption.any
      (fun mid => decide (mid.profile = [("Product", {1, 2})]) &&
        decide ((mid.visibleLevels sampleHidden.catalog).toOption = some [sampleDepartments]) &&
        ((Mutation.remove sampleDepartments).run sampleHidden.catalog .preserve [] mid).result.toOption.any fun axis' =>
          decide (axis'.profile = [("Product", {1})]) &&
            decide ((axis'.visibleLevels sampleHidden.catalog).toOption = some [])) = true := by
    decide +kernel
  obtain ⟨mid, hmid, hruns⟩ := exists_of_any_toOption hruns
  simp only [Bool.and_eq_true, decide_eq_true_eq] at hruns
  obtain ⟨⟨hprofile, hvisible⟩, hremove⟩ := hruns
  obtain ⟨axis', haxis', hremove⟩ := exists_of_any_toOption hremove
  simp only [Bool.and_eq_true, decide_eq_true_eq] at hremove
  obtain ⟨hprofile', hvisible'⟩ := hremove
  have hempty : ∀ m ∈ ({} : Axis).members, sampleHidden.Holds m := by
    intro m hm
    rw [Axis.members, Axis.memberSets_of_tuples?_eq_none rfl] at hm
    exact absurd hm List.not_mem_nil
  have hplaced := Runs.snoc (Runs.nil {}) (remembers_nil sampleHidden) hmid
  obtain ⟨-, hshown, hmoves, -⟩ := orderly_sampleHidden.tracks hempty hplaced
  obtain ⟨-, hshown', -, -⟩ := orderly_sampleHidden.tracks hempty (hplaced.snoc (remembers_nil sampleHidden) haxis')
  rw [hshown] at hvisible
  rw [hshown'] at hvisible'
  exact ⟨mid, axis', hplaced, hprofile, Option.some.inj hvisible, haxis', hmoves _ _ _ _ (remembers_nil _) haxis', hprofile',
    Option.some.inj hvisible'⟩

end Outline

end CubeAxes
