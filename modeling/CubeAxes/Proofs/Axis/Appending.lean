import Mathlib.Data.List.Perm.Basic
import CubeAxes.Proofs.Axis.Editing
import CubeAxes.Proofs.Axis.Placing

/-!
# Placing levels by adding them one by one

Adding a level at the end of an axis that selects what some levels stand for gives the axis that selects what these levels and the
new one stand for, so long as no level of the hierarchy is deeper than the new one (`Consistent.add_eq`). So adding levels one by
one, each hierarchy's in the order of depth, gives node for node the axis that placing all of them gives
(`Orderly.place_eq_runAll_add`).
-/

namespace CubeAxes

/-- Changing the mark of hierarchizing as a mode says changes nothing the second time. -/
@[simp] theorem HierarchizeMode.apply_apply (mode : HierarchizeMode) (previous : Bool) :
    mode.apply (mode.apply previous) = mode.apply previous := by
  cases mode <;> rfl

/-- Runs mutations one after the other, each on what the one before it made and with the sort keys remembered so far; the first
error ends the run. -/
def Mutation.runAll (cat : Catalog) (mode : HierarchizeMode) :
    SortKeys → Axis → List Mutation → Except AxisError Axis × SortKeys
  | keys, axis, [] => (.ok axis, keys)
  | keys, axis, m :: ms =>
    let outcome := m.run cat mode keys axis
    match outcome.result with
    | .error e => (.error e, outcome.keys)
    | .ok axis => runAll cat mode outcome.keys axis ms

/-- The levels of a list in another order: the hierarchies first occur in the order in which they did, and the levels of each come
by depth. -/
structure InDepthOrder (levels ls : List Level) : Prop where
  perm : ls.Perm levels
  hierarchies : distinctOn id (ls.map (·.hierarchy)) = distinctOn id (levels.map (·.hierarchy))
  ascending : ls.Pairwise fun a b => a.hierarchy = b.hierarchy → a.depth ≤ b.depth

/-- The levels of a list hierarchy by hierarchy, those of each by depth. -/
def inDepthOrder (levels : List Level) : List Level :=
  (distinctOn id (levels.map (·.hierarchy))).flatMap fun h =>
    sortBy (fun a b => decide (a.depth ≤ b.depth)) (levels.filter fun l => decide (l.hierarchy = h))

/-- Entries that are put in groups by a key, each key of theirs once, are all kept. -/
theorem perm_flatMap_filter {α κ : Type} [DecidableEq κ] (key : α → κ) {keys : List κ} (hk : keys.Nodup) {l : List α}
    (h : ∀ a ∈ l, key a ∈ keys) : (keys.flatMap fun k => l.filter fun a => decide (key a = k)).Perm l := by
  induction l with
  | nil =>
    have hnil : (keys.flatMap fun k => ([] : List α).filter fun a => decide (key a = k)) = [] :=
      List.flatMap_eq_nil_iff.2 fun _ _ => rfl
    rw [hnil]
  | cons a l ih =>
    obtain ⟨before, after, rfl⟩ := List.append_of_mem (h a List.mem_cons_self)
    have hnot : ∀ k ∈ before ++ after, key a ≠ k := by
      intro k hmem heq
      have hmid := (List.perm_middle.nodup_iff.1 hk)
      exact (List.nodup_cons.1 hmid).1 (heq ▸ hmem)
    have hskip : ∀ ks : List κ, (∀ k ∈ ks, key a ≠ k) →
        (ks.flatMap fun k => (a :: l).filter fun b => decide (key b = k)) = ks.flatMap fun k => l.filter fun b => decide (key b = k) := by
      intro ks hks
      refine List.flatMap_congr fun k hmem => ?_
      rw [List.filter_cons_of_neg (by simpa using hks k hmem)]
    have ih' := ih fun b hb => h b (List.mem_cons_of_mem a hb)
    rw [List.flatMap_append, List.flatMap_cons] at ih' ⊢
    rw [hskip before fun k hmem => hnot k (List.mem_append_left after hmem),
      hskip after fun k hmem => hnot k (List.mem_append_right before hmem), List.filter_cons_of_pos (by simp)]
    exact List.perm_middle.trans (ih'.cons a)

/-- The levels hierarchy by hierarchy are those of the list in another order. -/
theorem inDepthOrder_spec (levels : List Level) : InDepthOrder levels (inDepthOrder levels) := by
  have hnodup := nodup_distinctOn_id (levels.map (·.hierarchy))
  have hown : ∀ h ∈ distinctOn id (levels.map (·.hierarchy)),
      ∀ l ∈ sortBy (fun a b => decide (a.depth ≤ b.depth)) (levels.filter fun l => decide (l.hierarchy = h)), l.hierarchy = h := by
    intro h _ l hl
    exact of_decide_eq_true (List.mem_filter.1 (mem_sortBy.1 hl)).2
  refine ⟨?_, ?_, ?_⟩
  · have hgroups : (inDepthOrder levels).Perm ((distinctOn id (levels.map (·.hierarchy))).flatMap fun h =>
        levels.filter fun l => decide (l.hierarchy = h)) := List.Perm.flatMap_left _ fun h _ => sortBy_perm _ _
    refine hgroups.trans (perm_flatMap_filter Level.hierarchy hnodup fun l hl => ?_)
    exact mem_distinctOn_id.2 (List.mem_map_of_mem hl)
  · have hkeys := distinctOn_map_flatMap id _ Level.hierarchy hown (by rwa [List.map_id])
    rw [List.map_id, List.filter_eq_self.2] at hkeys
    · exact hkeys
    · intro h hh
      obtain ⟨l, hl, rfl⟩ := List.mem_map.1 (mem_distinctOn_id.1 hh)
      refine decide_eq_true (List.ne_nil_of_mem (mem_sortBy.2 (List.mem_filter.2 ⟨hl, ?_⟩)))
      exact decide_eq_true rfl
  · rw [inDepthOrder, List.pairwise_flatMap]
    refine ⟨fun h _ => (Edit.pairwise_sortBy_depth _).imp ?_, ?_⟩
    · intro a b hle _
      exact hle
    refine hnodup.imp_of_mem fun {h h'} hh hh' hne a ha b hb heq => absurd ?_ hne
    rw [← hown h hh a ha, ← hown h' hh' b hb]
    exact heq

/-- The depths of a hierarchy when one more level comes. -/
theorem depthsIn_append_singleton (hierarchy : String) (levels : List Level) (l : Level) :
    depthsIn hierarchy (levels ++ [l]) = depthsIn hierarchy levels ++ if l.hierarchy = hierarchy then [l.depth] else [] := by
  unfold depthsIn
  rw [List.filter_append, List.map_append]
  by_cases h : l.hierarchy = hierarchy <;> simp [h]

namespace Outline

variable {o : Outline}

/-! ## Adding one level -/

/-- One more level of a hierarchy that is there widens the band of the hierarchy. -/
theorem shown_append_of_mem {levels : List Level} {l : Level} (h : l.hierarchy ∈ levels.map (·.hierarchy)) :
    o.shown (levels ++ [l]) = (o.shown levels).map
      (Selection.change l.hierarchy fun _ => o.band l.hierarchy (depthsIn l.hierarchy levels ++ [l.depth])) := by
  have hkeys : distinctOn id ((levels ++ [l]).map (·.hierarchy)) = distinctOn id (levels.map (·.hierarchy)) := by
    rw [List.map_append, List.map_singleton, distinctOn_append_singleton, List.map_id, id, if_pos h, List.append_nil]
  rw [shown, shown, hkeys, List.map_map]
  refine List.map_congr_left fun h _ => ?_
  rw [Function.comp_apply, depthsIn_append_singleton]
  by_cases hh : l.hierarchy = h
  · rw [if_pos hh, Selection.change_of_eq hh.symm, hh]
  · rw [if_neg hh, Selection.change_of_ne (Ne.symm hh), List.append_nil]

/-- A level of a hierarchy that is not there comes last. -/
theorem shown_append_of_not_mem {levels : List Level} {l : Level} (h : l.hierarchy ∉ levels.map (·.hierarchy)) :
    o.shown (levels ++ [l]) = o.shown levels ++ [⟨l.hierarchy, o.band l.hierarchy [l.depth]⟩] := by
  have hkeys : distinctOn id ((levels ++ [l]).map (·.hierarchy)) = distinctOn id (levels.map (·.hierarchy)) ++ [l.hierarchy] := by
    rw [List.map_append, List.map_singleton, distinctOn_append_singleton, List.map_id, id, if_neg h]
  have hnone : depthsIn l.hierarchy levels = [] := by
    have hf : levels.filter (fun k => decide (k.hierarchy = l.hierarchy)) = [] := by
      refine List.filter_eq_nil_iff.2 fun k hk e => h ?_
      exact List.mem_map.2 ⟨k, hk, of_decide_eq_true e⟩
    rw [depthsIn, hf]
    rfl
  rw [shown, shown, hkeys, List.map_append, List.map_singleton, depthsIn_append_singleton, if_pos rfl, hnone]
  congr 1
  refine List.map_congr_left fun k hk => ?_
  have hne : l.hierarchy ≠ k := fun e => h (e ▸ mem_distinctOn_id.1 hk)
  rw [depthsIn_append_singleton, if_neg hne, List.append_nil]

/-- Where every level has members no selection is empty. -/
theorem Consistent.members_ne_nil_of_mem_shown (hc : Consistent o) {levels : List Level} (hm : ∀ l ∈ levels, o.HasMembers l)
    {s : Selection} (hs : s ∈ o.shown levels) : s.members ≠ [] := by
  obtain ⟨⟨l, hl, hh⟩, hmembers⟩ := mem_shown.1 hs
  obtain ⟨m, hheld, hmh, hd⟩ := hm l hl
  rw [hmembers]
  exact List.ne_nil_of_mem (hc.mem_band.2 ⟨hheld, hmh.trans hh, mem_depthsIn.2 ⟨l, hl, hh, hd.symm⟩⟩)

/-- An axis that selects what levels with members stand for selects just this. -/
theorem Consistent.selections_of_selects_shown (hc : Consistent o) {levels : List Level} (hm : ∀ l ∈ levels, o.HasMembers l)
    {axis : Axis} (h : axis.Selects (o.shown levels)) :
    axis.selections = o.shown levels ∧ axis.hierarchies = distinctOn id (levels.map (·.hierarchy)) := by
  have hall : (o.shown levels).filter (fun s => decide (s.members ≠ [])) = o.shown levels :=
    List.filter_eq_self.2 fun s hs => decide_eq_true (hc.members_ne_nil_of_mem_shown hm hs)
  rw [h.selections_eq, h.hierarchies_eq, hall]
  exact ⟨rfl, map_hierarchy_shown o levels⟩

/-- Adding a level at the end, no shallower than those of its hierarchy so far, edits selections that are what the levels so far and
the new one stand for once they are put in order: here where its hierarchy is on the axis. -/
theorem Consistent.exists_adding_of_mem (hc : Consistent o) {levels : List Level} (hm : ∀ k ∈ levels, o.HasMembers k) {l : Level}
    (hl : o.HasTable l) (hasc : ∀ k ∈ levels, k.hierarchy = l.hierarchy → k.depth ≤ l.depth) {axis : Axis}
    (hsel : axis.Selects (o.shown levels)) (hin : l.hierarchy ∈ levels.map (·.hierarchy)) :
    ∃ edit, Edit.adding o.catalog axis l (-1) = .ok edit ∧ edit.selections.map o.ordered = o.shown (levels ++ [l]) ∧
      ∀ s ∈ edit.selections, o.Sorts s := by
  obtain ⟨hselections, hhierarchies⟩ := hc.selections_of_selects_shown hm hsel
  have hpos : (-1 : Int) ≤ axis.selections.length := by omega
  have hin' : l.hierarchy ∈ axis.hierarchies := hhierarchies ▸ mem_distinctOn_id.2 hin
  obtain ⟨k, hk, hkl⟩ := List.mem_map.1 hin
  have hband : ∀ m, m ∈ axis.membersOf l.hierarchy ↔
      o.Holds m ∧ m.hierarchy = l.hierarchy ∧ m.depth ∈ depthsIn l.hierarchy levels := by
    intro m
    rw [← hkl, hsel.membersOf_eq (mem_shown_of_mem hk), hc.mem_band]
  have hne : depthsIn l.hierarchy levels ≠ [] := List.ne_nil_of_mem (mem_depthsIn.2 ⟨k, hk, hkl, rfl⟩)
  have hle : ∀ d ∈ depthsIn l.hierarchy levels, d ≤ l.depth := by
    intro d hd
    obtain ⟨k', hk', hkh, rfl⟩ := mem_depthsIn.1 hd
    exact hasc k' hk' hkh
  obtain ⟨drilled, hdrilled, hmem⟩ := hc.exists_expand_of_forall hl hne hle hband
  obtain ⟨notes, hedit⟩ := Edit.adding_of_mem hpos hin' hdrilled
  -- the members of the hierarchy and those drilled to are all the members at the depths so far and the new one
  have hwide : ∀ s ∈ o.shown levels, s.hierarchy = l.hierarchy → ∀ m, m ∈ s.members ++ drilled ↔
      o.Holds m ∧ m.hierarchy = l.hierarchy ∧ m.depth ∈ depthsIn l.hierarchy levels ++ [l.depth] := by
    intro s hs hsl
    rw [← hsel.membersOf_eq hs, hsl]
    exact hmem
  rw [hselections] at hedit
  refine ⟨_, hedit, ?_, ?_⟩
  · rw [shown_append_of_mem hin, List.map_map]
    refine List.map_congr_left fun s hs => ?_
    rw [Function.comp_apply]
    by_cases hsl : s.hierarchy = l.hierarchy
    · rw [Selection.change_of_eq hsl, Selection.change_of_eq hsl, ordered, hc.arranged_eq_band (hwide s hs hsl)]
    · rw [Selection.change_of_ne hsl, Selection.change_of_ne hsl, hc.ordered_of_mem_shown hs]
  · refine sorts_map_change (hc.sorts_shown levels) fun s hs hsl m hmem => ?_
    obtain ⟨hheld, hmh, -⟩ := (hwide s hs hsl m).1 hmem
    exact ⟨hheld, hmh⟩

/-- The same where its hierarchy is not on the axis. -/
theorem Consistent.exists_adding_of_not_mem (hc : Consistent o) {levels : List Level} (hm : ∀ k ∈ levels, o.HasMembers k)
    {l : Level} (hl : o.HasTable l) {axis : Axis} (hsel : axis.Selects (o.shown levels))
    (hin : l.hierarchy ∉ levels.map (·.hierarchy)) :
    ∃ edit, Edit.adding o.catalog axis l (-1) = .ok edit ∧ edit.selections.map o.ordered = o.shown (levels ++ [l]) ∧
      ∀ s ∈ edit.selections, o.Sorts s := by
  obtain ⟨hselections, hhierarchies⟩ := hc.selections_of_selects_shown hm hsel
  have hpos : (-1 : Int) ≤ axis.selections.length := by omega
  have hin' : l.hierarchy ∉ axis.hierarchies := by
    rw [hhierarchies, mem_distinctOn_id]
    exact hin
  obtain ⟨t, ht⟩ := hl
  obtain ⟨notes, hedit⟩ := Edit.adding_of_not_mem hpos hin' (membersOf_none ht)
  rw [hselections, if_pos (by omega), List.insertIdx_length_self] at hedit
  have hrows : ∀ m, m ∈ o.rows l.hierarchy l.depth ↔ o.Holds m ∧ m.hierarchy = l.hierarchy ∧ m.depth ∈ [l.depth] := by
    intro m
    rw [hc.mem_rows, List.mem_singleton]
  refine ⟨_, hedit, ?_, ?_⟩
  · rw [List.map_append, shown_append_of_not_mem hin, List.map_singleton, ordered, hc.arranged_eq_band hrows,
      List.map_congr_left fun _ hs => hc.ordered_of_mem_shown hs, List.map_id']
  · intro s hs
    rcases List.mem_append.1 hs with hs | hs
    · exact hc.sorts_shown levels s hs
    · obtain rfl := List.mem_singleton.1 hs
      exact hc.holdsAll_rows l.hierarchy l.depth

/-- Adding a level at the end makes the axis that joins what the levels so far and the new one stand for. -/
theorem Consistent.add_eq (hc : Consistent o) {levels : List Level} (hm : ∀ k ∈ levels, o.HasMembers k) {l : Level}
    (hl : o.HasTable l) (hasc : ∀ k ∈ levels, k.hierarchy = l.hierarchy → k.depth ≤ l.depth) {axis : Axis}
    (hsel : axis.Selects (o.shown levels)) (mode : HierarchizeMode) {keys : SortKeys} (hk : o.Remembers keys) :
    ((Mutation.add l (-1)).run o.catalog mode keys axis).result =
        Axis.ofSets ((o.shown (levels ++ [l])).map (·.members)) (mode.apply axis.hierarchize) ∧
      o.Remembers ((Mutation.add l (-1)).run o.catalog mode keys axis).keys := by
  obtain ⟨edit, hedit, hshown, hsorts⟩ : ∃ edit, Edit.adding o.catalog axis l (-1) = .ok edit ∧
      edit.selections.map o.ordered = o.shown (levels ++ [l]) ∧ ∀ s ∈ edit.selections, o.Sorts s := by
    by_cases hin : l.hierarchy ∈ levels.map (·.hierarchy)
    · exact hc.exists_adding_of_mem hm hl hasc hsel hin
    · exact hc.exists_adding_of_not_mem hm hl hsel hin
  have hedit' : (Mutation.add l (-1)).edit o.catalog axis = .ok edit := hedit
  obtain ⟨hresult, hkeys⟩ := hc.run_eq hedit' hsorts mode hk
  refine ⟨?_, hkeys⟩
  rw [hresult, ← hshown, List.map_map]
  rfl

/-! ## Adding levels one by one -/

/-- Adding further levels one by one to an axis that selects what some levels stand for makes the axis that joins what all of them
stand for. -/
theorem Consistent.runAll_add_eq (hc : Consistent o) (mode : HierarchizeMode) {levels ls : List Level} (hls : ls ≠ [])
    (hl : ∀ l ∈ levels ++ ls, o.HasLevel l ∧ o.HasMembers l)
    (hasc : (levels ++ ls).Pairwise fun a b => a.hierarchy = b.hierarchy → a.depth ≤ b.depth) {axis : Axis}
    (hsel : axis.Selects (o.shown levels)) {keys : SortKeys} (hk : o.Remembers keys) :
    (Mutation.runAll o.catalog mode keys axis (ls.map fun l => .add l (-1))).1 =
      Axis.ofSets ((o.shown (levels ++ ls)).map (·.members)) (mode.apply axis.hierarchize) := by
  induction ls generalizing levels axis keys with
  | nil => exact absurd rfl hls
  | cons l ls ih =>
    obtain ⟨hlevel, -⟩ := hl l (by simp)
    have hbefore : ∀ k ∈ levels, o.HasMembers k := fun k hk => (hl k (List.mem_append_left _ hk)).2
    have hle : ∀ k ∈ levels, k.hierarchy = l.hierarchy → k.depth ≤ l.depth :=
      fun k hk => (List.pairwise_append.1 hasc).2.2 k hk l List.mem_cons_self
    obtain ⟨hresult, hkeys⟩ := hc.add_eq hbefore hlevel.hasTable hle hsel mode hk
    obtain ⟨next, hnext, hz, hsel'⟩ :=
      hc.exists_ofSets_shown (List.append_ne_nil_of_right_ne_nil levels (List.cons_ne_nil l [])) (mode.apply axis.hierarchize)
    rw [hnext] at hresult
    rw [List.map_cons, Mutation.runAll]
    simp only [hresult]
    cases ls with
    | nil => exact hnext.symm
    | cons l' ls =>
      have hsplit : levels ++ l :: l' :: ls = levels ++ [l] ++ l' :: ls := by
        rw [List.append_assoc]
        rfl
      rw [hsplit] at hl hasc ⊢
      rw [ih (List.cons_ne_nil l' ls) hl hasc hsel' hkeys, hz, HierarchizeMode.apply_apply]

/-- What levels stand for does not depend on their order inside a hierarchy, nor on repetitions. -/
theorem Consistent.shown_congr (hc : Consistent o) {levels levels' : List Level} (hmem : ∀ l, l ∈ levels ↔ l ∈ levels')
    (hh : distinctOn id (levels.map (·.hierarchy)) = distinctOn id (levels'.map (·.hierarchy))) :
    o.shown levels = o.shown levels' := by
  rw [shown, shown, hh]
  refine List.map_congr_left fun h _ => ?_
  have hdepths : ∀ d, d ∈ depthsIn h levels ↔ d ∈ depthsIn h levels' := by
    intro d
    simp only [mem_depthsIn, hmem]
  rw [hc.band_congr h hdepths]

/-- On an axis on which nothing stands nothing is selected. -/
theorem selects_shown_nil (o : Outline) (hierarchize : Bool) : Axis.Selects { hierarchize } (o.shown []) where
  members := by
    rw [Axis.members, Axis.memberSets_of_tuples?_eq_none rfl]
    rfl
  own := fun s hs => absurd hs List.not_mem_nil
  nodup := fun s hs => absurd hs List.not_mem_nil
  hierarchies := List.nodup_nil

/-- Placing levels that have members gives, node for node, the axis that comes of adding them at the end one by one to an axis on
which nothing stands, the levels of each hierarchy by depth. So it matters neither what the axis selected before, nor how the
levels of a hierarchy were ordered, nor that some were repeated. -/
theorem Orderly.place_eq_runAll_add (ho : Orderly o) {levels : List Level} (hne : levels ≠ [])
    (hl : ∀ l ∈ levels, o.HasLevel l ∧ o.HasMembers l) (mode : HierarchizeMode) {keys : SortKeys} (hk : o.Remembers keys)
    (axis : Axis) :
    ∃ placed, ((Mutation.place levels).run o.catalog mode keys axis).result = .ok placed ∧
      (∀ ls, InDepthOrder levels ls → ∀ keys', o.Remembers keys' →
        (Mutation.runAll o.catalog mode keys' { hierarchize := axis.hierarchize } (ls.map fun l => .add l (-1))).1 = .ok placed) ∧
      ∀ levels' axis' keys', (∀ l, l ∈ levels ↔ l ∈ levels') →
        distinctOn id (levels.map (·.hierarchy)) = distinctOn id (levels'.map (·.hierarchy)) →
        axis'.hierarchize = axis.hierarchize → o.Remembers keys' →
        ((Mutation.place levels').run o.catalog mode keys' axis').result = .ok placed := by
  have hc := ho.consistent
  obtain ⟨placed, hplaced, -, -⟩ := hc.exists_ofSets_shown hne (mode.apply axis.hierarchize)
  refine ⟨placed, ?_, ?_, ?_⟩
  · rw [hc.place_eq (fun l h => (hl l h).1.hasTable) mode hk, hplaced]
  · intro ls hls keys' hk'
    have hmem : ∀ l, l ∈ ls ↔ l ∈ levels := fun l => hls.perm.mem_iff
    have hne' : ls ≠ [] := fun h => hne (List.perm_nil.1 (h ▸ hls.perm.symm))
    have hall : ∀ l ∈ [] ++ ls, o.HasLevel l ∧ o.HasMembers l := fun l h => hl l ((hmem l).1 h)
    have hrun := hc.runAll_add_eq mode hne' hall hls.ascending (selects_shown_nil o axis.hierarchize) hk'
    rw [hrun, List.nil_append, hc.shown_congr hmem hls.hierarchies]
    exact hplaced
  · intro levels' axis' keys' hmem hh hz hk'
    rw [hc.place_eq (fun l h => (hl l ((hmem l).2 h)).1.hasTable) mode hk', ← hc.shown_congr hmem hh, hz]
    exact hplaced

/-- On the small cube placing levels and adding them one by one come to the same axis. -/
theorem sample_place_eq_runAll_add :
    ∃ placed, ((Mutation.place sampleLevels).run sample.catalog .always [] {}).result = .ok placed ∧
      (Mutation.runAll sample.catalog .always [] {} ((inDepthOrder sampleLevels).map fun l => .add l (-1))).1 = .ok placed := by
  have hne : sampleLevels ≠ [] := List.cons_ne_nil _ _
  have hlevel : ∀ l ∈ sampleLevels, sample.HasLevel l := by decide +kernel
  have hrows : ∀ l ∈ sampleLevels, sample.rows l.hierarchy l.depth ≠ [] := by decide +kernel
  have hl : ∀ l ∈ sampleLevels, sample.HasLevel l ∧ sample.HasMembers l :=
    fun l h => ⟨hlevel l h, orderly_sample.consistent.hasMembers_iff.2 (hrows l h)⟩
  obtain ⟨placed, hplaced, hadding, -⟩ :=
    orderly_sample.place_eq_runAll_add hne hl .always (remembers_nil sample) {}
  exact ⟨placed, hplaced, hadding _ (inDepthOrder_spec sampleLevels) [] (remembers_nil sample)⟩

end Outline

end CubeAxes
