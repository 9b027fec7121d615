import Mathlib.Data.Finset.Sort
import CubeAxes.Proofs.Axis.Edited

/-!
# Profiles: the depths at which hierarchies are represented

The profile of an axis lists its hierarchies in their order, each with the set of the depths at which it has members. It is all that
the visible levels depend on: they are the levels at these depths that the catalog shows, entry by entry and by depth
(`Outline.Consistent.visibleLevels_eq`). The profile of the axis that comes of a mutation is read off the selections that the edit
leaves (`Outline.Consistent.exists_profile_of_run`); a level that is hidden counts in it like any other.
-/

namespace CubeAxes

/-- The level of a hierarchy at a depth, if the catalog has one. -/
def Catalog.levelAt? (cat : Catalog) (hierarchy : String) (depth : Nat) : Option Level :=
  (cat.levelsOf hierarchy).toOption.bind fun ls => ls[depth]?

/-- Hierarchies in an order, each with the depths at which it is represented. -/
abbrev Profile := List (String × Finset Nat)

namespace Profile

/-- One hierarchy is represented at other depths. -/
def change (hierarchy : String) (f : Finset Nat → Finset Nat) (p : Profile) : Profile :=
  p.map fun e => if e.1 = hierarchy then (e.1, f e.2) else e

/-- The hierarchies that are represented at some depth. -/
def represented (p : Profile) : Profile := p.filter fun e => decide (e.2 ≠ ∅)

/-- The levels at the depths of a profile that a catalog shows. -/
def visible (p : Profile) (cat : Catalog) : List Level :=
  p.flatMap fun e => (e.2.sort.filterMap (cat.levelAt? e.1)).filter cat.isVisible

/-- Changes that agree on the depths of a hierarchy are the same. -/
theorem change_congr {hierarchy : String} {f g : Finset Nat → Finset Nat} {p : Profile}
    (h : ∀ e ∈ p, e.1 = hierarchy → f e.2 = g e.2) : p.change hierarchy f = p.change hierarchy g := by
  refine List.map_congr_left fun e he => ?_
  by_cases hh : e.1 = hierarchy
  · rw [if_pos hh, if_pos hh, h e he hh]
  · rw [if_neg hh, if_neg hh]

/-- A change that leaves the depths of a hierarchy as they are is none. -/
theorem change_of_forall_eq {hierarchy : String} {f : Finset Nat → Finset Nat} {p : Profile}
    (h : ∀ e ∈ p, e.1 = hierarchy → f e.2 = e.2) : p.change hierarchy f = p := by
  rw [change_congr (g := id) h]
  refine (List.map_congr_left fun e _ => ?_).trans (List.map_id p)
  split <;> rfl

/-- Where every hierarchy is represented none is left out. -/
theorem represented_of_forall_ne {p : Profile} (h : ∀ e ∈ p, e.2 ≠ ∅) : p.represented = p :=
  List.filter_eq_self.2 fun e he => decide_eq_true (h e he)

end Profile

/-! ## The depths of members -/

/-- The depths at which members stand. -/
def depthSet (ms : List Member) : Finset Nat := (ms.map (·.depth)).toFinset

@[simp] theorem mem_depthSet {ms : List Member} {d : Nat} : d ∈ depthSet ms ↔ ∃ m ∈ ms, m.depth = d := by
  simp [depthSet]

@[simp] theorem depthSet_nil : depthSet [] = ∅ := rfl

@[simp] theorem depthSet_append (ms ns : List Member) : depthSet (ms ++ ns) = depthSet ms ∪ depthSet ns := by
  simp [depthSet]

@[simp] theorem depthSet_eq_empty {ms : List Member} : depthSet ms = ∅ ↔ ms = [] := by
  simp [depthSet]

/-- Where members stand depends on which they are only. -/
theorem depthSet_congr {ms ns : List Member} (h : ∀ m, m ∈ ms ↔ m ∈ ns) : depthSet ms = depthSet ns := by
  ext d
  simp only [mem_depthSet, h]

/-- Some members at one depth stand there. -/
theorem depthSet_of_forall_eq {ms : List Member} {d : Nat} (hne : ms ≠ []) (h : ∀ m ∈ ms, m.depth = d) : depthSet ms = {d} := by
  ext e
  rw [mem_depthSet, Finset.mem_singleton]
  constructor
  · rintro ⟨m, hm, rfl⟩
    exact h m hm
  · rintro rfl
    obtain ⟨m, hm⟩ := List.exists_mem_of_ne_nil ms hne
    exact ⟨m, hm, h m hm⟩

/-- The entry of a selection in a profile. -/
def Selection.entry (s : Selection) : String × Finset Nat := (s.hierarchy, depthSet s.members)

@[simp] theorem Selection.fst_entry (s : Selection) : s.entry.1 = s.hierarchy := rfl

@[simp] theorem Selection.snd_entry (s : Selection) : s.entry.2 = depthSet s.members := rfl

namespace Axis

/-- The hierarchies on an axis in their order, each with the depths at which it is represented. -/
def profile (axis : Axis) : Profile := axis.hierarchies.map fun h => (h, (axis.depths h).toFinset)

variable {axis : Axis}

/-- The depths of a hierarchy on an axis are those of its members there. -/
theorem toFinset_depths (axis : Axis) (hierarchy : String) : (axis.depths hierarchy).toFinset = depthSet (axis.membersOf hierarchy) := by
  ext d
  rw [List.mem_toFinset, mem_depths, mem_depthSet]

/-- The depths of a hierarchy on an axis ascend. -/
theorem sort_toFinset_depths (axis : Axis) (hierarchy : String) : (axis.depths hierarchy).toFinset.sort = axis.depths hierarchy := by
  have hasc := axis.pairwise_depths hierarchy
  exact (List.toFinset_sort _ (hasc.imp Nat.ne_of_lt)).2 (hasc.imp Nat.le_of_lt)

/-- The entries of a profile are those of what the axis selects. -/
theorem profile_eq (axis : Axis) : axis.profile = axis.selections.map Selection.entry := by
  rw [profile, selections, List.map_map]
  exact List.map_congr_left fun h _ => by rw [toFinset_depths]; rfl

/-- There are as many of them as hierarchies on the axis. -/
@[simp] theorem length_profile (axis : Axis) : axis.profile.length = axis.selections.length := by
  rw [profile_eq, List.length_map]

/-- An entry is that of a hierarchy on the axis. -/
theorem mem_profile {e : String × Finset Nat} :
    e ∈ axis.profile ↔ e.1 ∈ axis.hierarchies ∧ e.2 = depthSet (axis.membersOf e.1) := by
  rw [profile, List.mem_map]
  constructor
  · rintro ⟨h, hh, rfl⟩
    exact ⟨hh, axis.toFinset_depths h⟩
  · rintro ⟨hh, hds⟩
    exact ⟨e.1, hh, by rw [toFinset_depths, ← hds]⟩

/-- Every hierarchy on an axis is represented. -/
theorem ne_empty_of_mem_profile {e : String × Finset Nat} (he : e ∈ axis.profile) : e.2 ≠ ∅ := by
  obtain ⟨hh, hds⟩ := mem_profile.1 he
  rw [hds, Ne, depthSet_eq_empty]
  exact ne_nil_of_mem_selections (s := ⟨e.1, axis.membersOf e.1⟩) (mem_selections.2 ⟨hh, rfl⟩)

/-- The profile of an axis that selects what selections say has the entries of those that are not empty. -/
theorem Selects.profile_eq {ss : List Selection} (h : axis.Selects ss) :
    axis.profile = Profile.represented (ss.map Selection.entry) := by
  rw [Axis.profile_eq, h.selections_eq, Profile.represented, List.filter_map]
  congr 1
  refine List.filter_congr fun s _ => ?_
  simp

end Axis

/-! ## Entries of edited selections -/

/-- The entries of selections when one of them is changed. -/
theorem map_entry_change {hierarchy : String} {f : List Member → List Member} {g : Finset Nat → Finset Nat} {ss : List Selection}
    (h : ∀ s ∈ ss, s.hierarchy = hierarchy → depthSet (f s.members) = g (depthSet s.members)) :
    (ss.map (Selection.change hierarchy f)).map Selection.entry = Profile.change hierarchy g (ss.map Selection.entry) := by
  rw [Profile.change, List.map_map, List.map_map]
  refine List.map_congr_left fun s hs => ?_
  rw [Function.comp_apply, Function.comp_apply, Selection.fst_entry]
  by_cases hh : s.hierarchy = hierarchy
  · rw [Selection.change_of_eq hh, if_pos hh, Selection.snd_entry, ← h s hs hh]
    rfl
  · rw [Selection.change_of_ne hh, if_neg hh]

/-- The entries of selections from which a level was removed: what is left stands in the place of its hierarchy, if it is something. -/
theorem represented_map_entry_without {hierarchy : String} {left : List Member}
    (hleft : depthSet (distinctMembers left) = depthSet left) (ss : List Selection) :
    Profile.represented ((Outline.without hierarchy left ss).map Selection.entry) =
      Profile.represented (Profile.change hierarchy (fun _ => depthSet left) (ss.map Selection.entry)) := by
  by_cases hl : left = []
  · subst hl
    induction ss with
    | nil => rfl
    | cons s ss ih =>
      simp only [Outline.without, Profile.change, Profile.represented, if_true] at ih ⊢
      by_cases hs : s.hierarchy = hierarchy
      · simpa [hs] using ih
      · have hentry : ¬s.entry.1 = hierarchy := hs
        simp only [List.filterMap_cons, if_neg hs, List.map_cons, List.filter_cons, if_neg hentry, ih]
  · rw [Outline.without_of_ne_nil hl, map_entry_change (g := fun _ => depthSet left) fun _ _ _ => hleft]

namespace Outline

variable {o : Outline}

/-- Members in order stand where they did. -/
theorem depthSet_arranged {ms : List Member} (hms : ∀ m ∈ ms, o.Holds m) : depthSet (o.arranged ms) = depthSet ms :=
  depthSet_congr fun _ => mem_arranged hms

/-- The profile of the axis that comes of a mutation has the entries of the selections that the edit leaves. -/
theorem Consistent.exists_profile_of_run (hc : Consistent o) {axis axis' : Axis} (hax : ∀ m ∈ axis.members, o.Holds m) {m : Mutation}
    {mode : HierarchizeMode} {keys : SortKeys} (hk : o.Remembers keys) (h : (m.run o.catalog mode keys axis).result = .ok axis') :
    ∃ edit, m.edit o.catalog axis = .ok edit ∧ axis'.profile = Profile.represented (edit.selections.map Selection.entry) := by
  obtain ⟨edit, he, hss, hh, hne, hsets⟩ := hc.spec_of_run hax hk h
  obtain ⟨axis'', haxis, -, -, hsel⟩ := exists_ofSets_ordered hne hss hh (mode.apply axis.hierarchize)
  obtain rfl := Except.ok.inj (haxis.symm.trans hsets)
  have hentries : (edit.selections.map o.ordered).map Selection.entry = edit.selections.map Selection.entry := by
    rw [List.map_map]
    refine List.map_congr_left fun s hs => ?_
    rw [Function.comp_apply, Selection.entry, members_ordered, depthSet_arranged fun k hk => (hss s hs k hk).1]
    rfl
  exact ⟨edit, he, by rw [hsel.profile_eq, hentries]⟩

/-! ## Visible levels -/

/-- At each depth at which a hierarchy is represented the catalog has one level of it. -/
theorem Consistent.exists_levelAt? (hc : Consistent o) {axis : Axis} (hax : ∀ m ∈ axis.members, o.Holds m) {e : String × Finset Nat}
    (he : e ∈ axis.profile) {d : Nat} (hd : d ∈ e.2) :
    ∃ l, o.catalog.levelAt? e.1 d = some l ∧ o.HasLevel l ∧ l.hierarchy = e.1 ∧ l.depth = d := by
  obtain ⟨-, hds⟩ := Axis.mem_profile.1 he
  rw [hds, mem_depthSet] at hd
  obtain ⟨m, hm, rfl⟩ := hd
  obtain ⟨hheld, hh⟩ := holdsAll_membersOf hax e.1 m hm
  obtain ⟨ls, l, hls, hl⟩ := hc.exists_levelsOf hheld
  rw [hh] at hls
  have hls' : o.catalog.levelsOf e.1 = .ok ls := hls
  refine ⟨l, ?_, spec_of_getElem?_levelsOf hls hl⟩
  rw [Catalog.levelAt?, hls']
  exact hl

/-- The visible levels of an axis are those of its profile. -/
theorem Consistent.visibleLevels_eq (hc : Consistent o) {axis : Axis} (hax : ∀ m ∈ axis.members, o.Holds m) :
    axis.visibleLevels o.catalog = .ok (axis.profile.visible o.catalog) := by
  have hone : ∀ h ∈ axis.hierarchies, axis.visibleLevelsOf o.catalog h =
      .ok (((axis.depths h).filterMap (o.catalog.levelAt? h)).filter o.catalog.isVisible) := by
    intro h hh
    obtain ⟨m, hm, rfl⟩ := Axis.mem_hierarchies.1 hh
    have hmem := (mem_membersOf hax).2 ⟨hm, rfl⟩
    have hdepths : axis.depths m.hierarchy ≠ [] := List.ne_nil_of_mem (Axis.mem_depths.2 ⟨m, hmem, rfl⟩)
    obtain ⟨ls, -, hls, -⟩ := hc.exists_levelsOf (hax m hm)
    have hls' : o.catalog.levelsOf m.hierarchy = .ok ls := hls
    have hat : o.catalog.levelAt? m.hierarchy = fun d => ls[d]? := by
      funext d
      rw [Catalog.levelAt?, hls']
      rfl
    rw [Axis.visibleLevelsOf, if_neg hdepths, hls', asked_ok, ok_bind, hat]
    rfl
  rw [Axis.visibleLevels, mapM_eq_ok hone, ok_bind, Profile.visible, Axis.profile, List.flatMap_map]
  simp only [Axis.sort_toFinset_depths]
  rfl

end Outline

end CubeAxes
