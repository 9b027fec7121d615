import CubeAxes.Proofs.Axis.Rebuilding
import CubeAxes.Proofs.Outline.Drilling

/-!
# Placing levels over a consistent outline

Placing starts from the members of the shallowest level of a hierarchy and drills to each further one. Every member has an ancestor
at each depth above it, so this comes to all the members at the depths asked for (`Consistent.exists_filled`), and the axis selects
`Outline.shown`: for each hierarchy all the members at its depths, in hierarchical order (`Consistent.place_eq`).
-/

namespace CubeAxes

/-- The depths of the levels of a hierarchy among several levels. -/
def depthsIn (hierarchy : String) (levels : List Level) : List Nat :=
  (levels.filter fun l => decide (l.hierarchy = hierarchy)).map (·.depth)

/-- A depth is among those of a hierarchy when some level of the hierarchy has it. -/
theorem mem_depthsIn {hierarchy : String} {levels : List Level} {d : Nat} :
    d ∈ depthsIn hierarchy levels ↔ ∃ l ∈ levels, l.hierarchy = hierarchy ∧ l.depth = d := by
  simp only [depthsIn, List.mem_map, List.mem_filter, decide_eq_true_eq, and_assoc]

namespace Edit

/-- The levels of a hierarchy among several are levels of the hierarchy. -/
theorem mem_of_mem_levelsIn {hierarchy : String} {levels : List Level} {l : Level} (h : l ∈ levelsIn hierarchy levels) :
    l ∈ levels ∧ l.hierarchy = hierarchy := by
  have hf := List.mem_filter.1 (mem_sortBy.1 (mem_of_mem_distinctOn h))
  exact ⟨hf.1, of_decide_eq_true hf.2⟩

/-- No depth of the hierarchy gets lost. -/
theorem mem_map_depth_levelsIn {hierarchy : String} {levels : List Level} {d : Nat} :
    d ∈ (levelsIn hierarchy levels).map (·.depth) ↔ d ∈ depthsIn hierarchy levels := by
  rw [mem_depthsIn, List.mem_map]
  constructor
  · rintro ⟨l, hl, rfl⟩
    obtain ⟨hmem, hh⟩ := mem_of_mem_levelsIn hl
    exact ⟨l, hmem, hh, rfl⟩
  · rintro ⟨l, hl, hh, rfl⟩
    exact exists_mem_distinctOn Level.depth (mem_sortBy.2 (List.mem_filter.2 ⟨hl, decide_eq_true hh⟩))

/-- Levels sorted by depth do not descend. -/
theorem pairwise_sortBy_depth (levels : List Level) :
    (sortBy (fun a b => decide (a.depth ≤ b.depth)) levels).Pairwise fun a b => a.depth ≤ b.depth := by
  have h : (sortBy (fun a b => decide (a.depth ≤ b.depth)) levels).Pairwise fun a b => decide (a.depth ≤ b.depth) := by
    refine sortBy_pairwise ?_ ?_ levels
    · intro a b c hab hbc
      exact decide_eq_true (Nat.le_trans (of_decide_eq_true hab) (of_decide_eq_true hbc))
    · intro a b
      rcases Nat.le_total a.depth b.depth with h | h <;> simp [h]
  exact h.imp of_decide_eq_true

/-- The levels of a hierarchy among several descend in depth nowhere. -/
theorem pairwise_levelsIn (hierarchy : String) (levels : List Level) :
    (levelsIn hierarchy levels).Pairwise fun a b => a.depth ≤ b.depth :=
  (pairwise_sortBy_depth _).sublist (distinctOn_sublist _ _)

/-- No two of them are of one depth. -/
theorem pairwise_lt_levelsIn (hierarchy : String) (levels : List Level) :
    (levelsIn hierarchy levels).Pairwise fun a b => a.depth < b.depth := by
  have hne := List.pairwise_map.1 (nodup_map_distinctOn Level.depth
    (sortBy (fun a b => decide (a.depth ≤ b.depth)) (levels.filter fun l => decide (l.hierarchy = hierarchy))))
  exact ((pairwise_levelsIn hierarchy levels).and hne).imp fun h => Nat.lt_of_le_of_ne h.1 h.2

end Edit

namespace Outline

variable {o : Outline}

/-! ## What levels stand for -/

/-- The members of a hierarchy at some depths, in hierarchical order. -/
def band (o : Outline) (hierarchy : String) (depths : List Nat) : List Member := o.arranged (depths.flatMap (o.rows hierarchy))

/-- What levels select: for each hierarchy, in the order in which they first occur, all the members at its depths. -/
def shown (o : Outline) (levels : List Level) : List Selection :=
  (distinctOn id (levels.map (·.hierarchy))).map fun h => ⟨h, o.band h (depthsIn h levels)⟩

/-- The rows of some depths are members of the hierarchy that are held. -/
theorem Consistent.holdsAll_flatMap_rows (hc : Consistent o) (hierarchy : String) (depths : List Nat) :
    o.HoldsAll hierarchy (depths.flatMap (o.rows hierarchy)) := by
  intro m hm
  obtain ⟨d, -, hrow⟩ := List.mem_flatMap.1 hm
  exact hc.holdsAll_rows hierarchy d m hrow

/-- The rows of some depths are all the members there. -/
theorem Consistent.mem_flatMap_rows (hc : Consistent o) {hierarchy : String} {depths : List Nat} {m : Member} :
    m ∈ depths.flatMap (o.rows hierarchy) ↔ o.Holds m ∧ m.hierarchy = hierarchy ∧ m.depth ∈ depths := by
  rw [List.mem_flatMap]
  constructor
  · rintro ⟨d, hd, hrow⟩
    obtain ⟨hheld, hh, rfl⟩ := hc.mem_rows.1 hrow
    exact ⟨hheld, hh, hd⟩
  · rintro ⟨hheld, hh, hd⟩
    exact ⟨m.depth, hd, hc.mem_rows.2 ⟨hheld, hh, rfl⟩⟩

/-- A band holds all the members of the hierarchy at its depths. -/
theorem Consistent.mem_band (hc : Consistent o) {hierarchy : String} {depths : List Nat} {m : Member} :
    m ∈ o.band hierarchy depths ↔ o.Holds m ∧ m.hierarchy = hierarchy ∧ m.depth ∈ depths := by
  rw [band, mem_arranged fun n hn => (hc.holdsAll_flatMap_rows hierarchy depths n hn).1, hc.mem_flatMap_rows]

/-- The members of a band are held and of its hierarchy. -/
theorem Consistent.holdsAll_band (hc : Consistent o) (hierarchy : String) (depths : List Nat) :
    o.HoldsAll hierarchy (o.band hierarchy depths) := fun _ hm => ⟨(hc.mem_band.1 hm).1, (hc.mem_band.1 hm).2.1⟩

/-- Any list of all the members of the hierarchy at some depths is put in the order of the band. -/
theorem Consistent.arranged_eq_band (hc : Consistent o) {hierarchy : String} {depths : List Nat} {ms : List Member}
    (h : ∀ m, m ∈ ms ↔ o.Holds m ∧ m.hierarchy = hierarchy ∧ m.depth ∈ depths) : o.arranged ms = o.band hierarchy depths := by
  refine (hc.arranged_congr (hc.holdsAll_flatMap_rows hierarchy depths) fun m => ?_).symm
  rw [hc.mem_flatMap_rows, h]

/-- A band does not depend on the order of its depths, nor on repetitions among them. -/
theorem Consistent.band_congr (hc : Consistent o) (hierarchy : String) {depths depths' : List Nat}
    (h : ∀ d, d ∈ depths ↔ d ∈ depths') : o.band hierarchy depths = o.band hierarchy depths' := by
  refine hc.arranged_eq_band fun m => ?_
  rw [hc.mem_flatMap_rows, h]

/-- The selections that levels stand for are of different hierarchies. -/
theorem map_hierarchy_shown (o : Outline) (levels : List Level) :
    (o.shown levels).map (·.hierarchy) = distinctOn id (levels.map (·.hierarchy)) := by
  rw [shown, List.map_map]
  exact List.map_id' _

theorem nodup_hierarchy_shown (o : Outline) (levels : List Level) : ((o.shown levels).map (·.hierarchy)).Nodup := by
  rw [map_hierarchy_shown]
  exact nodup_distinctOn_id _

/-- The selection of a hierarchy among the levels is its band. -/
theorem mem_shown {levels : List Level} {s : Selection} :
    s ∈ o.shown levels ↔ (∃ l ∈ levels, l.hierarchy = s.hierarchy) ∧ s.members = o.band s.hierarchy (depthsIn s.hierarchy levels) := by
  rw [shown, List.mem_map]
  constructor
  · rintro ⟨h, hh, rfl⟩
    exact ⟨List.mem_map.1 (mem_distinctOn_id.1 hh), rfl⟩
  · rintro ⟨⟨l, hl, hls⟩, hms⟩
    refine ⟨s.hierarchy, mem_distinctOn_id.2 (List.mem_map.2 ⟨l, hl, hls⟩), ?_⟩
    rw [← hms]

/-- Each level asked for has the band of its hierarchy among the selections. -/
theorem mem_shown_of_mem {levels : List Level} {l : Level} (hl : l ∈ levels) :
    ⟨l.hierarchy, o.band l.hierarchy (depthsIn l.hierarchy levels)⟩ ∈ o.shown levels := mem_shown.2 ⟨⟨l, hl, rfl⟩, rfl⟩

/-- A band is in order already. -/
theorem Consistent.arranged_band (hc : Consistent o) (hierarchy : String) (depths : List Nat) :
    o.arranged (o.band hierarchy depths) = o.band hierarchy depths := by
  refine hc.arranged_of_pairwise (fun m hm => (hc.mem_band.1 hm).1) ?_
  exact hc.pairwise_arranged (hc.holdsAll_flatMap_rows hierarchy depths)

/-- What levels stand for are selections of members that are held. -/
theorem Consistent.sorts_shown (hc : Consistent o) (levels : List Level) : ∀ s ∈ o.shown levels, o.Sorts s := by
  intro s hs
  rw [Sorts, (mem_shown.1 hs).2]
  exact hc.holdsAll_band _ _

/-- What levels stand for is in order already. -/
theorem Consistent.ordered_of_mem_shown (hc : Consistent o) {levels : List Level} {s : Selection} (hs : s ∈ o.shown levels) :
    o.ordered s = s := by
  rw [ordered, (mem_shown.1 hs).2, hc.arranged_band, ← (mem_shown.1 hs).2]

/-- The axis that joins what levels stand for selects it. -/
theorem Consistent.exists_ofSets_shown (hc : Consistent o) {levels : List Level} (hne : levels ≠ []) (hierarchize : Bool) :
    ∃ axis, Axis.ofSets ((o.shown levels).map (·.members)) hierarchize = .ok axis ∧ axis.hierarchize = hierarchize ∧
      axis.Selects (o.shown levels) := by
  have hne' : o.shown levels ≠ [] := by
    obtain ⟨l, hl⟩ := List.exists_mem_of_ne_nil levels hne
    exact List.ne_nil_of_mem (mem_shown_of_mem hl)
  obtain ⟨axis, haxis, hz, -, hsel⟩ :=
    exists_ofSets_ordered hne' (hc.sorts_shown levels) (nodup_hierarchy_shown o levels) hierarchize
  have hordered : (o.shown levels).map o.ordered = o.shown levels :=
    (List.map_congr_left fun _ hs => hc.ordered_of_mem_shown hs).trans (List.map_id _)
  have hmembers : ((o.shown levels).map fun s => o.arranged s.members) = (o.shown levels).map (·.members) :=
    List.map_congr_left fun _ hs => congrArg Selection.members (hc.ordered_of_mem_shown hs)
  rw [hmembers] at haxis
  rw [hordered] at hsel
  exact ⟨axis, haxis, hz, hsel⟩

/-! ## Filling -/

/-- Drilling on through levels that do not descend keeps all the members at the depths reached so far selected, and no others. -/
theorem Consistent.exists_foldlM_expand (hc : Consistent o) {hierarchy : String} {levels : List Level}
    (hl : ∀ l ∈ levels, o.HasTable l ∧ l.hierarchy = hierarchy) (hasc : levels.Pairwise fun a b => a.depth ≤ b.depth)
    {depths : List Nat} (hne : depths ≠ []) (hle : ∀ d ∈ depths, ∀ l ∈ levels, d ≤ l.depth) {ms : List Member}
    (hms : ∀ m, m ∈ ms ↔ o.Holds m ∧ m.hierarchy = hierarchy ∧ m.depth ∈ depths) :
    ∃ ms', levels.foldlM (fun ms level => do return ms ++ (← o.catalog.expand ms level)) ms = .ok ms' ∧
      ∀ m, m ∈ ms' ↔ o.Holds m ∧ m.hierarchy = hierarchy ∧ m.depth ∈ depths ++ levels.map (·.depth) := by
  induction levels generalizing depths ms with
  | nil =>
    refine ⟨ms, rfl, ?_⟩
    rw [List.map_nil, List.append_nil]
    exact hms
  | cons l levels ih =>
    obtain ⟨hlevel, rfl⟩ := hl l List.mem_cons_self
    obtain ⟨hlasc, hasc'⟩ := List.pairwise_cons.1 hasc
    have hdl : ∀ d ∈ depths, d ≤ l.depth := fun d hd => hle d hd l List.mem_cons_self
    obtain ⟨new, hnew, hmem⟩ := hc.exists_expand_of_forall hlevel hne hdl hms
    have hle' : ∀ d ∈ depths ++ [l.depth], ∀ l' ∈ levels, d ≤ l'.depth := by
      intro d hd l' hl'
      rcases List.mem_append.1 hd with hd | hd
      · exact hle d hd l' (List.mem_cons_of_mem l hl')
      · rw [List.mem_singleton.1 hd]
        exact hlasc l' hl'
    obtain ⟨ms', hms', hmem'⟩ := ih (fun l' hl' => hl l' (List.mem_cons_of_mem l hl')) hasc' (by simp) hle' hmem
    refine ⟨ms', ?_, ?_⟩
    · rw [List.foldlM_cons, hnew]
      exact hms'
    · rw [List.append_assoc] at hmem'
      exact hmem'

/-- The members that levels of a hierarchy select, put in order, are its band. -/
theorem Consistent.exists_filled (hc : Consistent o) {hierarchy : String} {levels : List Level}
    (hl : ∀ l ∈ Edit.levelsIn hierarchy levels, o.HasTable l) (hh : ∃ l ∈ levels, l.hierarchy = hierarchy) :
    ∃ ms, Edit.filled o.catalog (Edit.levelsIn hierarchy levels) = .ok ms ∧
      ∀ m, m ∈ ms ↔ o.Holds m ∧ m.hierarchy = hierarchy ∧ m.depth ∈ depthsIn hierarchy levels := by
  have hin : ∀ l ∈ Edit.levelsIn hierarchy levels, o.HasTable l ∧ l.hierarchy = hierarchy := by
    intro l hmem
    exact ⟨hl l hmem, (Edit.mem_of_mem_levelsIn hmem).2⟩
  have hasc := Edit.pairwise_levelsIn hierarchy levels
  have hdepths : ∀ d, d ∈ (Edit.levelsIn hierarchy levels).map (·.depth) ↔ d ∈ depthsIn hierarchy levels :=
    fun _ => Edit.mem_map_depth_levelsIn
  generalize Edit.levelsIn hierarchy levels = ls at hin hasc hdepths
  cases ls with
  | nil =>
    obtain ⟨l, hlev, hlh⟩ := hh
    have hnil := (hdepths l.depth).2 (mem_depthsIn.2 ⟨l, hlev, hlh, rfl⟩)
    exact absurd hnil List.not_mem_nil
  | cons first deeper =>
    obtain ⟨hfirst, rfl⟩ := hin first List.mem_cons_self
    obtain ⟨hfasc, hasc'⟩ := List.pairwise_cons.1 hasc
    obtain ⟨t, ht⟩ := hfirst
    have hrows : ∀ m, m ∈ o.rows first.hierarchy first.depth ↔
        o.Holds m ∧ m.hierarchy = first.hierarchy ∧ m.depth ∈ [first.depth] := by
      intro m
      rw [hc.mem_rows, List.mem_singleton]
    have hle : ∀ d ∈ [first.depth], ∀ l ∈ deeper, d ≤ l.depth := by
      intro d hd l hmem
      rw [List.mem_singleton.1 hd]
      exact hfasc l hmem
    obtain ⟨ms, hms, hmem⟩ := hc.exists_foldlM_expand (fun l hmem => hin l (List.mem_cons_of_mem first hmem)) hasc'
      (List.cons_ne_nil _ _) hle hrows
    refine ⟨ms, ?_, fun m => ?_⟩
    · rw [Edit.filled, membersOf_none ht, asked_ok, ok_bind]
      exact hms
    · rw [hmem, ← hdepths]
      rfl

/-- Placing edits selections that are what the levels stand for once they are put in order. -/
theorem Consistent.exists_placing (hc : Consistent o) {levels : List Level} (hl : ∀ l ∈ levels, o.HasTable l) :
    ∃ ss, Edit.placing o.catalog levels = .ok { selections := ss } ∧ ss.map o.ordered = o.shown levels ∧
      ∀ s ∈ ss, o.Sorts s := by
  have hall : ∀ h ∈ distinctOn id (levels.map (·.hierarchy)), ∃ s : Selection,
      (do return (⟨h, ← Edit.filled o.catalog (Edit.levelsIn h levels)⟩ : Selection) : Except AxisError Selection) = .ok s ∧
        o.ordered s = ⟨h, o.band h (depthsIn h levels)⟩ ∧ o.Sorts s := by
    intro h hh
    obtain ⟨ms, hms, hmem⟩ := hc.exists_filled (fun l hmem => hl l (Edit.mem_of_mem_levelsIn hmem).1) (List.mem_map.1 (mem_distinctOn_id.1 hh))
    refine ⟨⟨h, ms⟩, by rw [hms]; rfl, ?_, fun m hm => ⟨((hmem m).1 hm).1, ((hmem m).1 hm).2.1⟩⟩
    rw [ordered, hc.arranged_eq_band hmem]
  obtain ⟨ss, hss, hordered, hsorts⟩ := exists_mapM_eq_ok hall
  exact ⟨ss, by rw [Edit.placing, hss]; rfl, hordered, hsorts⟩

/-- Placing levels builds the axis that joins what they stand for. -/
theorem Consistent.place_eq (hc : Consistent o) {levels : List Level} (hl : ∀ l ∈ levels, o.HasTable l) (mode : HierarchizeMode)
    {keys : SortKeys} (hk : o.Remembers keys) (axis : Axis) :
    ((Mutation.place levels).run o.catalog mode keys axis).result =
      Axis.ofSets ((o.shown levels).map (·.members)) (mode.apply axis.hierarchize) := by
  obtain ⟨ss, hss, hshown, hsorts⟩ := hc.exists_placing hl
  have hedit : (Mutation.place levels).edit o.catalog axis = .ok { selections := ss } := hss
  rw [(hc.run_eq hedit hsorts mode hk).1, ← hshown, List.map_map]
  rfl

end Outline

end CubeAxes
