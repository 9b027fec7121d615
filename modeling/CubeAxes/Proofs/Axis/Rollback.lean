import CubeAxes.TupleSet.Written
import CubeAxes.Proofs.Axis.Editing

/-!
# Drilling and rolling back

An axis as mutations leave it is normal: one set of members after the other is joined, each of a hierarchy of its own and in
hierarchical order (`Outline.Normal`). A level that such an axis does not hold can be added and removed again, and the axis reads as
before (`Orderly.remove_add`). Where the hierarchy was not there the whole set goes again. Where it was, the level was reached from
the depth above it or from below; in the first case the members removed are rolled up to the ones they were drilled from, so nothing
new is left, and in the second nothing is rolled up.
-/

namespace CubeAxes

/-- The text of an axis is settled by the set that stands on it and by its mark. -/
theorem Axis.text_congr {axis axis' : Axis} (ht : axis.tuples? = axis'.tuples?) (hz : axis.hierarchize = axis'.hierarchize)
    (ro : RenderOptions) : axis.text ro = axis'.text ro := by
  unfold Axis.text
  rw [ht, hz]

namespace Outline

variable {o : Outline}

/-- An axis as mutations leave it: it joins the members of selections, one after the other. The selections are of different
hierarchies and none of them is empty; the members of each are held, of its hierarchy, and in hierarchical order. -/
structure Normal (o : Outline) (axis : Axis) (ss : List Selection) : Prop where
  joins : axis.Joins (ss.map (·.members))
  nonempty : ss ≠ []
  sorts : ∀ s ∈ ss, o.Sorts s
  full : ∀ s ∈ ss, s.members ≠ []
  order : ∀ s ∈ ss, s.members.Pairwise o.Precedes
  hierarchies : (ss.map (·.hierarchy)).Nodup

namespace Normal

variable {axis : Axis} {ss : List Selection}

/-- Each selection of a normal axis is in order already. -/
theorem arranged_eq (hn : o.Normal axis ss) (hc : Consistent o) {s : Selection} (hs : s ∈ ss) : o.arranged s.members = s.members :=
  hc.arranged_of_pairwise (fun m hm => (hn.sorts s hs m hm).1) (hn.order s hs)

theorem ordered_eq (hn : o.Normal axis ss) (hc : Consistent o) {s : Selection} (hs : s ∈ ss) : o.ordered s = s := by
  rw [ordered, hn.arranged_eq hc hs]

/-- So are several of them. -/
theorem map_ordered_eq (hn : o.Normal axis ss) (hc : Consistent o) {ts : List Selection} (hts : ts ⊆ ss) : ts.map o.ordered = ts :=
  (List.map_congr_left fun _ hs => hn.ordered_eq hc (hts hs)).trans (List.map_id ts)

theorem map_arranged_eq (hn : o.Normal axis ss) (hc : Consistent o) :
    (ss.map fun s => o.arranged s.members) = ss.map (·.members) :=
  List.map_congr_left fun _ hs => hn.arranged_eq hc hs

/-- A normal axis selects what it was joined from. -/
theorem selects (hn : o.Normal axis ss) (hc : Consistent o) : axis.Selects ss := by
  refine hn.joins.selects (fun s hs m hm => (hn.sorts s hs m hm).2) (fun s hs => ?_) hn.hierarchies
  rw [← hn.arranged_eq hc hs]
  exact nodup_map_arranged o s.members

theorem selections_eq (hn : o.Normal axis ss) (hc : Consistent o) : axis.selections = ss := by
  rw [(hn.selects hc).selections_eq]
  exact List.filter_eq_self.2 fun s hs => decide_eq_true (hn.full s hs)

theorem mem_hierarchies (hn : o.Normal axis ss) (hc : Consistent o) {hierarchy : String} :
    hierarchy ∈ axis.hierarchies ↔ ∃ s ∈ ss, s.hierarchy = hierarchy := by
  have hall : ss.filter (fun s => decide (s.members ≠ [])) = ss :=
    List.filter_eq_self.2 fun s hs => decide_eq_true (hn.full s hs)
  rw [(hn.selects hc).hierarchies_eq, hall, List.mem_map]

/-- An axis that is built anew from the members of a normal axis reads like it. -/
theorem exists_ofSets_text_eq (hn : o.Normal axis ss) (hc : Consistent o) :
    ∃ axis', Axis.ofSets (ss.map (·.members)) axis.hierarchize = .ok axis' ∧ ∀ ro, axis'.text ro = axis.text ro := by
  obtain ⟨axis', haxis', hz, hjoins, -⟩ := exists_ofSets_ordered hn.nonempty hn.sorts hn.hierarchies axis.hierarchize
  rw [hn.map_arranged_eq hc] at haxis' hjoins
  exact ⟨axis', haxis', fun ro => Axis.text_congr (hjoins.trans hn.joins.symm) hz ro⟩

/-- Bringing one more hierarchy in between keeps the selections held and of different hierarchies. -/
theorem insert {before after : List Selection} (hn : o.Normal axis (before ++ after)) {s : Selection} (hs : o.Sorts s)
    (hin : ∀ t ∈ before ++ after, t.hierarchy ≠ s.hierarchy) :
    (∀ t ∈ before ++ s :: after, o.Sorts t) ∧ ((before ++ s :: after).map (·.hierarchy)).Nodup := by
  constructor
  · intro t ht
    rcases List.mem_cons.1 (List.perm_middle.mem_iff.1 ht) with rfl | ht
    · exact hs
    · exact hn.sorts t ht
  · refine (List.perm_middle.map _).nodup_iff.2 ?_
    rw [List.map_cons, List.nodup_cons]
    refine ⟨fun hmem => ?_, hn.hierarchies⟩
    obtain ⟨t, ht, heq⟩ := List.mem_map.1 hmem
    exact hin t ht heq

/-- Selections of which one was changed, put in order, and changed back to the members that it had are, put in order, what they
were. -/
theorem map_ordered_change_change (hn : o.Normal axis ss) (hc : Consistent o) {hierarchy : String} (f : List Member → List Member)
    {left : List Member} (hleft : ∀ s ∈ ss, s.hierarchy = hierarchy → ∀ m, m ∈ s.members ↔ m ∈ left) :
    ((ss.map (o.ordered ∘ Selection.change hierarchy f)).map (Selection.change hierarchy fun _ => left)).map o.ordered = ss := by
  rw [List.map_map, List.map_map]
  refine (List.map_congr_left fun s hs => ?_).trans (List.map_id ss)
  rw [Function.comp_apply, Function.comp_apply, Function.comp_apply, id]
  by_cases hh : s.hierarchy = hierarchy
  · have hback : (o.ordered (s.change hierarchy f)).hierarchy = hierarchy := by
      rw [hierarchy_ordered, Selection.hierarchy_change, hh]
    rw [Selection.change_of_eq hback, ordered, ← hc.arranged_congr (hn.sorts s hs) (hleft s hs hh), hn.arranged_eq hc hs,
      hierarchy_ordered, Selection.hierarchy_change]
  · rw [Selection.change_of_ne hh, hn.ordered_eq hc hs, Selection.change_of_ne hh, hn.ordered_eq hc hs]

end Normal

/-! ## What is left when a level is removed -/

/-- From members all at the depth removed nothing is left. -/
theorem left_eq_nil_of_forall {axis : Axis} {l : Level} {left : List Member}
    (hleft : ∀ m, m ∈ left ↔ o.Leaves axis l m) (hall : ∀ m ∈ axis.membersOf l.hierarchy, m.depth = l.depth) : left = [] := by
  refine List.eq_nil_iff_forall_not_mem.2 fun m hm => ?_
  rcases (hleft m).1 hm with ⟨hmem, hne⟩ | ⟨above, habove, -, -⟩
  · exact hne (hall m hmem)
  · obtain ⟨hdepths, hlt, -⟩ := (Edit.depthAbove?_eq_some (Axis.pairwise_depths axis l.hierarchy)).1 habove
    obtain ⟨n, hn, rfl⟩ := Axis.mem_depths.1 hdepths
    exact absurd (hall n hn) (Nat.ne_of_lt hlt)

/-- When what is on the axis are the members selected before and those drilled to from them, the members selected before are left:
those drilled to are rolled up, if at all, to the anchors. -/
theorem Consistent.mem_left_of_drilled (hc : Consistent o) {axis : Axis} {l : Level} {t : LevelTable}
    (ht : o.table? l.hierarchy l.depth = some t) {selected drilled left : List Member} (hs : o.HoldsAll l.hierarchy selected)
    (hd : ∀ m ∈ selected, m.depth ≠ l.depth) (hdrilled : o.catalog.expand selected l = .ok drilled)
    (hlevel : ∀ m ∈ drilled, m.depth = l.depth) (hon : ∀ m, m ∈ axis.membersOf l.hierarchy ↔ m ∈ selected ∨ m ∈ drilled)
    (hleft : ∀ m, m ∈ left ↔ o.Leaves axis l m) (m : Member) : m ∈ left ↔ m ∈ selected := by
  rw [hleft]
  constructor
  · rintro (⟨hmem, hne⟩ | ⟨above, habove, -, r, hr, rfl⟩)
    · rcases (hon m).1 hmem with hmem | hmem
      · exact hmem
      · exact absurd (hlevel m hmem) hne
    · -- the depth above is that of the anchors, and what was removed was drilled from them
      obtain ⟨hdepths, hlt, hmax⟩ := (Edit.depthAbove?_eq_some (Axis.pairwise_depths axis l.hierarchy)).1 habove
      obtain ⟨n, hn, rfl⟩ := Axis.mem_depths.1 hdepths
      have hsel : n ∈ selected := by
        rcases (hon n).1 hn with hn | hn
        · exact hn
        · exact absurd (hlevel n hn) (Nat.ne_of_lt hlt)
      have hanchor : anchorDepth? selected l = some n.depth := by
        refine anchorDepth?_eq_some.2 ⟨⟨n, hsel, rfl⟩, hlt, fun s hs' hslt => ?_⟩
        exact hmax s.depth (Axis.mem_depths.2 ⟨s, (hon s).2 (Or.inl hs'), rfl⟩) hslt
      obtain ⟨drilled', hdrilled', hmem'⟩ := hc.exists_expand_of_anchor ht hs hanchor
      obtain rfl := Except.ok.inj (hdrilled.symm.trans hdrilled')
      obtain ⟨hr, hrd⟩ := List.mem_filter.1 hr
      rcases (hon r).1 hr with hr | hr
      · exact absurd (of_decide_eq_true hrd) (hd r hr)
      · exact ((hmem' r).1 hr).2
  · intro hmem
    exact Or.inl ⟨(hon m).2 (Or.inl hmem), hd m hmem⟩

/-! ## Adding a level and removing it again -/

/-- What adding a level to a normal axis comes to when the level is removed again, if the level has members on the axis then: edited
selections that, put in order, are those of the axis. -/
def Undone (o : Outline) (added : Axis) (l : Level) (ss : List Selection) : Prop :=
  l.depth ∈ added.depths l.hierarchy →
    ∃ edit, Edit.removing o.catalog added l = .ok edit ∧ (∀ s ∈ edit.selections, o.Sorts s) ∧ edit.selections.map o.ordered = ss

/-- Adding a level of a hierarchy that is not on a normal axis puts its members, in order, somewhere between the selections. -/
theorem Normal.exists_inserted {axis : Axis} {ss : List Selection} (hn : o.Normal axis ss) (hc : Consistent o) {l : Level}
    (hl : o.HasTable l) (hin : ∀ s ∈ ss, s.hierarchy ≠ l.hierarchy) {position : Int} (hp : position ≤ ss.length) {keys : SortKeys}
    (hk : o.Remembers keys) :
    ∃ before after added, ss = before ++ after ∧ ((Mutation.add l position).run o.catalog .preserve keys axis).result = .ok added ∧
      added.hierarchize = axis.hierarchize ∧
      added.Selects (before ++ o.ordered ⟨l.hierarchy, o.rows l.hierarchy l.depth⟩ :: after) := by
  obtain ⟨t, ht⟩ := hl
  have hnot : l.hierarchy ∉ axis.hierarchies := by
    rw [hn.mem_hierarchies hc]
    rintro ⟨s, hs, heq⟩
    exact hin s hs heq
  have hpos : position ≤ axis.selections.length := by
    rw [hn.selections_eq hc]
    exact hp
  obtain ⟨notes, hedit⟩ := Edit.adding_of_not_mem hpos hnot (membersOf_none ht)
  rw [hn.selections_eq hc] at hedit
  obtain ⟨before, after, rfl, hins⟩ := exists_insertIdx_eq ⟨l.hierarchy, o.rows l.hierarchy l.depth⟩ (Edit.index_le hp)
  rw [hins] at hedit
  have hedit' : (Mutation.add l position).edit o.catalog axis = .ok _ := hedit
  obtain ⟨hsorts, hhierarchies⟩ := hn.insert (s := ⟨l.hierarchy, o.rows l.hierarchy l.depth⟩) (hc.holdsAll_rows _ _) hin
  obtain ⟨added, hadded, hz, -, hsel⟩ := exists_ofSets_ordered (by simp) hsorts hhierarchies axis.hierarchize
  rw [List.map_append, List.map_cons, hn.map_ordered_eq hc (List.subset_append_left _ _),
    hn.map_ordered_eq hc (List.subset_append_right _ _)] at hsel
  exact ⟨before, after, added, rfl, (hc.run_eq hedit' hsorts .preserve hk).1.trans hadded, hz, hsel⟩

/-- A hierarchy that is brought in and taken out again leaves a normal axis as it was. -/
theorem Normal.undone_of_not_mem {axis : Axis} {ss : List Selection} (hn : o.Normal axis ss) (hc : Consistent o) {l : Level}
    (hl : o.HasLevel l) (hv : o.isVisible l = true) (hin : ∀ s ∈ ss, s.hierarchy ≠ l.hierarchy) {position : Int}
    (hp : position ≤ ss.length) {keys : SortKeys} (hk : o.Remembers keys) :
    ∃ added, ((Mutation.add l position).run o.catalog .preserve keys axis).result = .ok added ∧
      added.hierarchize = axis.hierarchize ∧ o.Undone added l ss := by
  obtain ⟨before, after, added, rfl, hadded, hz, hsel⟩ := hn.exists_inserted hc hl.hasTable hin hp hk
  refine ⟨added, hadded, hz, fun hd => ?_⟩
  have hrows := hc.holdsAll_rows l.hierarchy l.depth
  have hon : added.membersOf l.hierarchy = o.arranged (o.rows l.hierarchy l.depth) :=
    hsel.membersOf_eq (s := o.ordered ⟨l.hierarchy, o.rows l.hierarchy l.depth⟩) (by simp)
  have hmem : ∀ m, m ∈ added.membersOf l.hierarchy ↔ m ∈ o.rows l.hierarchy l.depth := by
    intro m
    rw [hon, mem_arranged fun n h => (hrows n h).1]
  -- all the members of the hierarchy go when the level is removed
  obtain ⟨left, ⟨notes, hremoving⟩, hleft⟩ := hc.exists_removing hl hv (fun m hm => hrows m ((hmem m).1 hm)) hd
  obtain rfl := left_eq_nil_of_forall hleft fun m hm => (hc.mem_rows.1 ((hmem m).1 hm)).2.2
  have hselections : added.selections = before ++ o.ordered ⟨l.hierarchy, o.rows l.hierarchy l.depth⟩ :: after := by
    rw [hsel.selections_eq]
    refine List.filter_eq_self.2 fun s hs => decide_eq_true ?_
    rcases List.mem_cons.1 (List.perm_middle.mem_iff.1 hs) with rfl | hs
    · obtain ⟨m, hm, -⟩ := Axis.mem_depths.1 hd
      rw [hon] at hm
      exact List.ne_nil_of_mem hm
    · exact hn.full s hs
  have hwithout : without l.hierarchy [] added.selections = before ++ after := by
    rw [hselections]
    exact without_nil_middle _ rfl hin
  rw [hwithout] at hremoving
  exact ⟨_, hremoving, hn.sorts, hn.map_ordered_eq hc (List.Subset.refl _)⟩

/-- Adding a level of a hierarchy that is on a normal axis widens its selection by what is drilled to. -/
theorem Normal.exists_drilled {axis : Axis} {ss : List Selection} (hn : o.Normal axis ss) (hc : Consistent o) {l : Level}
    (hl : o.HasTable l) {s : Selection} (hs : s ∈ ss) (hsl : s.hierarchy = l.hierarchy) {position : Int}
    (hp : position ≤ ss.length) {keys : SortKeys} (hk : o.Remembers keys) :
    ∃ drilled added, o.catalog.expand s.members l = .ok drilled ∧
      (∀ m ∈ drilled, o.Holds m ∧ m.hierarchy = l.hierarchy ∧ m.depth = l.depth) ∧
      ((Mutation.add l position).run o.catalog .preserve keys axis).result = .ok added ∧ added.hierarchize = axis.hierarchize ∧
      (∀ r ∈ ss.map (Selection.change l.hierarchy (· ++ drilled)), o.Sorts r) ∧
      added.Selects (ss.map (o.ordered ∘ Selection.change l.hierarchy (· ++ drilled))) := by
  have hin : l.hierarchy ∈ axis.hierarchies := (hn.mem_hierarchies hc).2 ⟨s, hs, hsl⟩
  have hpos : position ≤ axis.selections.length := by
    rw [hn.selections_eq hc]
    exact hp
  have hmembers : axis.membersOf l.hierarchy = s.members := by
    rw [← hsl, (hn.selects hc).membersOf_eq hs]
  have hheld : o.HoldsAll l.hierarchy s.members := hsl ▸ hn.sorts s hs
  obtain ⟨drilled, hdrilled, hlevel⟩ := hc.exists_expand hl hheld
  obtain ⟨notes, hedit⟩ := Edit.adding_of_mem hpos hin (hmembers ▸ hdrilled)
  rw [hn.selections_eq hc] at hedit
  have hedit' : (Mutation.add l position).edit o.catalog axis = .ok _ := hedit
  have hsorts : ∀ r ∈ ss.map (Selection.change l.hierarchy (· ++ drilled)), o.Sorts r := by
    refine sorts_map_change hn.sorts fun r hr hrl m hm => ?_
    rcases List.mem_append.1 hm with hm | hm
    · exact hrl ▸ hn.sorts r hr m hm
    · exact ⟨(hlevel m hm).1, (hlevel m hm).2.1⟩
  have hhierarchies : ((ss.map (Selection.change l.hierarchy (· ++ drilled))).map (·.hierarchy)).Nodup := by
    rw [Selection.map_hierarchy_change]
    exact hn.hierarchies
  obtain ⟨added, hadded, hz, -, hsel⟩ :=
    exists_ofSets_ordered (by simpa using hn.nonempty) hsorts hhierarchies axis.hierarchize
  rw [List.map_map] at hsel
  exact ⟨drilled, added, hdrilled, hlevel, (hc.run_eq hedit' hsorts .preserve hk).1.trans hadded, hz, hsorts, hsel⟩

/-- A level that is drilled to and removed again leaves a normal axis as it was. -/
theorem Normal.undone_of_mem {axis : Axis} {ss : List Selection} (hn : o.Normal axis ss) (hc : Consistent o) {l : Level}
    (hl : o.HasLevel l) (hv : o.isVisible l = true) (hd : l.depth ∉ axis.depths l.hierarchy) {s : Selection} (hs : s ∈ ss)
    (hsl : s.hierarchy = l.hierarchy) {position : Int} (hp : position ≤ ss.length) {keys : SortKeys} (hk : o.Remembers keys) :
    ∃ added, ((Mutation.add l position).run o.catalog .preserve keys axis).result = .ok added ∧
      added.hierarchize = axis.hierarchize ∧ o.Undone added l ss := by
  obtain ⟨drilled, added, hdrilled, hlevel, hadded, hz, hsorts, hsel⟩ := hn.exists_drilled hc hl.hasTable hs hsl hp hk
  refine ⟨added, hadded, hz, fun hd' => ?_⟩
  obtain ⟨t, ht⟩ := hl.hasTable
  have hheld : o.HoldsAll l.hierarchy s.members := hsl ▸ hn.sorts s hs
  have hall : o.HoldsAll l.hierarchy (s.members ++ drilled) := by
    have h := hsorts _ (List.mem_map_of_mem hs)
    rwa [Selection.change_of_eq hsl, Sorts, hsl] at h
  have hof : ∀ r ∈ ss, r.hierarchy = l.hierarchy → r = s :=
    fun r hr hrl => List.inj_on_of_nodup_map hn.hierarchies hr hs (hrl.trans hsl.symm)
  have hnone : ∀ m ∈ s.members, m.depth ≠ l.depth := by
    intro m hm heq
    rw [← hsl, Axis.mem_depths, (hn.selects hc).membersOf_eq hs] at hd
    exact hd ⟨m, hm, heq⟩
  -- the members of the hierarchy are those selected before and those drilled to
  have hon : added.membersOf l.hierarchy = o.arranged (s.members ++ drilled) := by
    have h := hsel.membersOf_eq (List.mem_map_of_mem hs)
    rw [Function.comp_apply, Selection.change_of_eq hsl, hierarchy_ordered, hsl] at h
    exact h
  have hmem : ∀ m, m ∈ added.membersOf l.hierarchy ↔ m ∈ s.members ∨ m ∈ drilled := by
    intro m
    rw [hon, mem_arranged fun n h => (hall n h).1, List.mem_append]
  have hmemheld : o.HoldsAll l.hierarchy (added.membersOf l.hierarchy) :=
    fun m hm => hall m (List.mem_append.2 ((hmem m).1 hm))
  -- those selected before are left when the level is removed
  obtain ⟨left, ⟨notes, hremoving⟩, hleft⟩ := hc.exists_removing hl hv hmemheld hd'
  have hsame := hc.mem_left_of_drilled ht hheld hnone hdrilled (fun m hm => (hlevel m hm).2.2) hmem hleft
  have hleftne : left ≠ [] := by
    obtain ⟨m, hm⟩ := List.exists_mem_of_ne_nil _ (hn.full s hs)
    exact List.ne_nil_of_mem ((hsame m).2 hm)
  have hselections : added.selections = ss.map (o.ordered ∘ Selection.change l.hierarchy (· ++ drilled)) := by
    rw [hsel.selections_eq]
    refine List.filter_eq_self.2 fun r' hr' => decide_eq_true ?_
    obtain ⟨r, hr, rfl⟩ := List.mem_map.1 hr'
    rw [Function.comp_apply]
    by_cases hrl : r.hierarchy = l.hierarchy
    · rw [hof r hr hrl, Selection.change_of_eq hsl, members_ordered, ← hon]
      exact List.ne_nil_of_mem (Axis.mem_depths.1 hd').choose_spec.1
    · rw [Selection.change_of_ne hrl, hn.ordered_eq hc hr]
      exact hn.full r hr
  rw [without_of_ne_nil hleftne, hselections] at hremoving
  refine ⟨_, hremoving, ?_, hn.map_ordered_change_change hc _ fun r hr hrl m => ?_⟩
  · refine sorts_map_change (fun r' hr' => ?_) fun _ _ _ m hm => hheld m ((hsame m).1 (mem_of_mem_distinctOn hm))
    obtain ⟨r, hr, rfl⟩ := List.mem_map.1 hr'
    exact (hsorts _ (List.mem_map_of_mem hr)).ordered
  · rw [hof r hr hrl, mem_distinctMembers fun n h => (hheld n ((hsame n).1 h)).1, hsame]

/-- A level that a normal axis over an orderly outline does not hold can be added and removed again: if it has members on the axis
once it is added, it can be removed, and the axis reads exactly as before. This is so whether its hierarchy is on the axis or not,
and wherever the level stands among those that are. -/
theorem Orderly.remove_add (ho : Orderly o) {axis : Axis} {ss : List Selection} (hn : o.Normal axis ss) {l : Level}
    (hl : o.HasLevel l) (hv : o.isVisible l = true) (hd : l.depth ∉ axis.depths l.hierarchy) {position : Int}
    (hp : position ≤ ss.length) {keys keys' : SortKeys} (hk : o.Remembers keys) (hk' : o.Remembers keys') :
    ∃ added, ((Mutation.add l position).run o.catalog .preserve keys axis).result = .ok added ∧
      (l.depth ∈ added.depths l.hierarchy →
        ∃ removed, ((Mutation.remove l).run o.catalog .preserve keys' added).result = .ok removed ∧
          ∀ ro, removed.text ro = axis.text ro) := by
  have hc := ho.consistent
  have hadd : ∃ added, ((Mutation.add l position).run o.catalog .preserve keys axis).result = .ok added ∧
      added.hierarchize = axis.hierarchize ∧ o.Undone added l ss := by
    by_cases hin : ∃ s ∈ ss, s.hierarchy = l.hierarchy
    · obtain ⟨s, hs, hsl⟩ := hin
      exact hn.undone_of_mem hc hl hv hd hs hsl hp hk
    · exact hn.undone_of_not_mem hc hl hv (fun s hs heq => hin ⟨s, hs, heq⟩) hp hk
  obtain ⟨added, hadded, hz, hundone⟩ := hadd
  refine ⟨added, hadded, fun hd' => ?_⟩
  obtain ⟨edit, hedit, hsorts, hss⟩ := hundone hd'
  obtain ⟨removed, hremoved, htext⟩ := hn.exists_ofSets_text_eq hc
  have hedit' : (Mutation.remove l).edit o.catalog added = .ok edit := hedit
  have hmembers : (edit.selections.map fun s => o.arranged s.members) = ss.map (·.members) := by
    rw [← hss, List.map_map]
    rfl
  refine ⟨removed, ?_, htext⟩
  rw [(hc.run_eq hedit' hsorts .preserve hk').1, hmembers, ← hremoved, ← hz]
  rfl

/-- An axis with one family of the small cube. -/
def sampleOneFamily : Axis := .ofTuples (.members [sampleFamily]) true

/-- On the small cube a family is drilled to its departments and rolled back, and the genders, which were not on the axis, are brought in
behind it and taken out again. -/
theorem sample_remove_add :
    (∃ added removed : Axis,
      ((Mutation.add ⟨"Product", "Department", 2⟩ 0).run sample.catalog .preserve [] sampleOneFamily).result = .ok added ∧
      2 ∈ added.depths "Product" ∧
      ((Mutation.remove ⟨"Product", "Department", 2⟩).run sample.catalog .preserve [] added).result = .ok removed ∧
      ∀ ro, removed.text ro = sampleOneFamily.text ro) ∧
    ∃ added removed : Axis,
      ((Mutation.add ⟨"Gender", "Gender", 1⟩ 1).run sample.catalog .preserve [] sampleOneFamily).result = .ok added ∧
      1 ∈ added.depths "Gender" ∧
      ((Mutation.remove ⟨"Gender", "Gender", 1⟩).run sample.catalog .preserve [] added).result = .ok removed ∧
      ∀ ro, removed.text ro = sampleOneFamily.text ro := by
  have hfamily : sample.member? sampleFamily.uniqueName = some sampleFamily := by decide +kernel
  have hn : sample.Normal sampleOneFamily [⟨"Product", [sampleFamily]⟩] := by
    refine ⟨Axis.tuples?_ofTuples _ _, by simp, ?_, by simp, by simp, by simp⟩
    intro s hs m hm
    obtain rfl := List.mem_singleton.1 hs
    obtain rfl := List.mem_singleton.1 hm
    exact ⟨hfamily, rfl⟩
  have hback : ∀ (l : Level) {position : Int}, position ≤ 1 → sample.HasLevel l → sample.isVisible l = true →
      l.depth ∉ sampleOneFamily.depths l.hierarchy →
      ((Mutation.add l position).run sample.catalog .preserve [] sampleOneFamily).result.toOption.any
        (fun a => decide (l.depth ∈ a.depths l.hierarchy)) = true →
      ∃ added removed : Axis, ((Mutation.add l position).run sample.catalog .preserve [] sampleOneFamily).result = .ok added ∧
        l.depth ∈ added.depths l.hierarchy ∧ ((Mutation.remove l).run sample.catalog .preserve [] added).result = .ok removed ∧
        ∀ ro, removed.text ro = sampleOneFamily.text ro := by
    intro l position hp hl hv hd hon
    obtain ⟨added, hadded, hremove⟩ := orderly_sample.remove_add hn hl hv hd hp (remembers_nil sample) (remembers_nil sample)
    rw [hadded] at hon
    obtain ⟨removed, hremoved, htext⟩ := hremove (of_decide_eq_true hon)
    exact ⟨added, removed, hadded, of_decide_eq_true hon, hremoved, htext⟩
  exact ⟨hback ⟨"Product", "Department", 2⟩ (by decide) (by decide +kernel) (by decide +kernel) (by decide +kernel) (by decide +kernel),
    hback ⟨"Gender", "Gender", 1⟩ (by decide) (by decide +kernel) (by decide +kernel) (by decide +kernel) (by decide +kernel)⟩

end Outline

end CubeAxes
