import CubeAxes.Proofs.Axis.Placing
import CubeAxes.Proofs.Axis.Visible

/-!
# What placing levels puts on an axis

An axis on which levels were placed holds, for each hierarchy among them, all the members of the catalog at the depths asked for,
each once, and nothing else; and the levels that it shows are those asked for that the catalog shows and that have members
(`Orderly.place_exactly`).
-/

namespace CubeAxes

namespace Outline

variable {o : Outline}

/-- An axis that selects what levels stand for has, of each of their hierarchies, the band at its depths. -/
theorem membersOf_of_selects_shown {axis : Axis} {levels : List Level} (h : axis.Selects (o.shown levels)) {l : Level}
    (hl : l ∈ levels) : axis.membersOf l.hierarchy = o.band l.hierarchy (depthsIn l.hierarchy levels) :=
  h.membersOf_eq (mem_shown_of_mem hl)

/-- The hierarchies of such an axis are among those of the levels, in the order in which these first occur. -/
theorem hierarchies_of_selects_shown {axis : Axis} {levels : List Level} (h : axis.Selects (o.shown levels)) :
    axis.hierarchies.Sublist (distinctOn id (levels.map (·.hierarchy))) := by
  rw [h.hierarchies_eq, ← map_hierarchy_shown o levels]
  exact List.filter_sublist.map _

/-- Of each hierarchy on such an axis there are members there, and all of them are held. -/
theorem Consistent.membersOf_of_mem_hierarchies (hc : Consistent o) {axis : Axis} {levels : List Level}
    (h : axis.Selects (o.shown levels)) {hierarchy : String} (hh : hierarchy ∈ axis.hierarchies) :
    (∃ l ∈ levels, l.hierarchy = hierarchy) ∧ axis.membersOf hierarchy ≠ [] ∧ o.HoldsAll hierarchy (axis.membersOf hierarchy) := by
  rw [h.hierarchies_eq] at hh
  obtain ⟨s, hs, rfl⟩ := List.mem_map.1 hh
  obtain ⟨hmem, hne⟩ := List.mem_filter.1 hs
  rw [h.membersOf_eq hmem]
  exact ⟨(mem_shown.1 hmem).1, of_decide_eq_true hne, hc.sorts_shown levels s hmem⟩

/-- Members of a band stand in hierarchical order: parents before what is below them, and siblings as in the catalog. -/
theorem Consistent.pairwise_band (hc : Consistent o) (hierarchy : String) (depths : List Nat) :
    (o.band hierarchy depths).Pairwise fun a b =>
      o.Precedes a b ∧ o.isBelow a b.uniqueName = false ∧ (a.parent = b.parent → a.ordinal < b.ordinal) := by
  have hprec : (o.band hierarchy depths).Pairwise o.Precedes := hc.pairwise_arranged (hc.holdsAll_flatMap_rows hierarchy depths)
  refine hprec.imp_of_mem fun {a b} ha hb hab => ?_
  obtain ⟨hheld, hh, -⟩ := hc.mem_band.1 ha
  obtain ⟨hheld', hh', -⟩ := hc.mem_band.1 hb
  exact ⟨hab, hc.isBelow_of_precedes hheld hheld' (hh.trans hh'.symm) hab, hc.ordinal_lt_of_precedes hheld hheld' hab⟩

/-- A level stands at a depth of its hierarchy on such an axis when it was asked for and has members. -/
theorem Consistent.mem_depths_of_selects_shown (hc : Consistent o) {axis : Axis} {levels : List Level}
    (hl : ∀ l ∈ levels, o.HasLevel l) (h : axis.Selects (o.shown levels)) {l : Level} (hlevel : o.HasLevel l)
    (hh : ∃ l' ∈ levels, l'.hierarchy = l.hierarchy) : l.depth ∈ axis.depths l.hierarchy ↔ l ∈ levels ∧ o.HasMembers l := by
  obtain ⟨l', hl', hhl⟩ := hh
  rw [Axis.mem_depths, ← hhl, membersOf_of_selects_shown h hl', hhl]
  constructor
  · rintro ⟨m, hm, hd⟩
    obtain ⟨hheld, hmh, hdepth⟩ := hc.mem_band.1 hm
    obtain ⟨k, hk, hkh, hkd⟩ := mem_depthsIn.1 hdepth
    obtain rfl := (hl k hk).eq_of_depth hlevel hkh (hkd.trans hd)
    exact ⟨hk, m, hheld, hmh, hd⟩
  · rintro ⟨hmem, m, hheld, hmh, hd⟩
    exact ⟨m, hc.mem_band.2 ⟨hheld, hmh, mem_depthsIn.2 ⟨l, hmem, rfl, hd.symm⟩⟩, hd⟩

/-- Of a hierarchy on such an axis the visible levels are those asked for that the catalog shows and that have members. -/
theorem Consistent.exists_visibleLevelsOf_of_selects_shown (hc : Consistent o) {axis : Axis} {levels : List Level}
    (hl : ∀ l ∈ levels, o.HasLevel l) (h : axis.Selects (o.shown levels)) {hierarchy : String} (hh : hierarchy ∈ axis.hierarchies) :
    ∃ visible, axis.visibleLevelsOf o.catalog hierarchy = .ok visible ∧
      (∀ l, l ∈ visible ↔ (l ∈ levels ∧ o.isVisible l = true ∧ o.HasMembers l) ∧ l.hierarchy = hierarchy) ∧
      visible.Pairwise fun a b => a.depth < b.depth := by
  obtain ⟨hreq, hne, hheld⟩ := hc.membersOf_of_mem_hierarchies h hh
  obtain ⟨visible, hvisible, hmem, hpair⟩ := hc.exists_visibleLevelsOf hne hheld
  refine ⟨visible, hvisible, fun l => ?_, hpair⟩
  rw [hmem]
  constructor
  · rintro ⟨hlevel, rfl, hd, hv⟩
    obtain ⟨hasked, hms⟩ := (hc.mem_depths_of_selects_shown hl h hlevel hreq).1 hd
    exact ⟨⟨hasked, hv, hms⟩, rfl⟩
  · rintro ⟨⟨hasked, hv, hms⟩, rfl⟩
    exact ⟨hl l hasked, rfl, (hc.mem_depths_of_selects_shown hl h (hl l hasked) hreq).2 ⟨hasked, hms⟩, hv⟩

/-- The hierarchy of a level asked for that has members is on such an axis. -/
theorem Consistent.mem_hierarchies_of_selects_shown (hc : Consistent o) {axis : Axis} {levels : List Level}
    (h : axis.Selects (o.shown levels)) {l : Level} (hl : l ∈ levels) (hm : o.HasMembers l) : l.hierarchy ∈ axis.hierarchies := by
  obtain ⟨m, hheld, hmh, hd⟩ := hm
  rw [h.hierarchies_eq]
  have hband : m ∈ o.band l.hierarchy (depthsIn l.hierarchy levels) :=
    hc.mem_band.2 ⟨hheld, hmh, mem_depthsIn.2 ⟨l, hl, rfl, hd.symm⟩⟩
  refine List.mem_map.2 ⟨_, List.mem_filter.2 ⟨mem_shown_of_mem hl, ?_⟩, rfl⟩
  exact decide_eq_true (List.ne_nil_of_mem hband)

/-- The visible levels of such an axis are the levels asked for that the catalog shows and that have members: hierarchies in the
order in which they were first asked for, and levels of a hierarchy by depth. -/
theorem Consistent.exists_visibleLevels (hc : Consistent o) {axis : Axis} {levels : List Level} (hl : ∀ l ∈ levels, o.HasLevel l)
    (h : axis.Selects (o.shown levels)) :
    ∃ visible, axis.visibleLevels o.catalog = .ok visible ∧
      (∀ l, l ∈ visible ↔ l ∈ levels ∧ o.isVisible l = true ∧ o.HasMembers l) ∧
      visible.Pairwise fun a b => (a.hierarchy = b.hierarchy ∧ a.depth < b.depth) ∨
        (levels.map (·.hierarchy)).idxOf a.hierarchy < (levels.map (·.hierarchy)).idxOf b.hierarchy := by
  obtain ⟨visible, hvisible, hmem, hpair, -⟩ :=
    Axis.exists_visibleLevels (fun _ hn => hc.exists_visibleLevelsOf_of_selects_shown hl h hn)
      ((pairwise_idxOf_distinctOn (levels.map (·.hierarchy))).sublist (hierarchies_of_selects_shown h))
  refine ⟨visible, hvisible, fun l => ?_, hpair⟩
  rw [hmem]
  exact and_iff_left_of_imp fun hasked => hc.mem_hierarchies_of_selects_shown h hasked.1 hasked.2.2

/-- Placing levels of an orderly outline on any axis succeeds and puts exactly these levels there. Of each hierarchy asked for the
axis holds all the members at the depths asked for, each once, parents before what is below them and siblings as in the catalog; no
other hierarchy occurs; and the axis shows exactly the levels asked for that the catalog shows and that have members, hierarchies in
the order in which they were first asked for, and levels of a hierarchy by depth. -/
theorem Orderly.place_exactly (ho : Orderly o) {levels : List Level} (hne : levels ≠ []) (hl : ∀ l ∈ levels, o.HasLevel l)
    (mode : HierarchizeMode) {keys : SortKeys} (hk : o.Remembers keys) (axis : Axis) :
    ∃ placed, ((Mutation.place levels).run o.catalog mode keys axis).result = .ok placed ∧
      (∀ l ∈ levels,
        (placed.membersOf l.hierarchy).Nodup ∧
        (∀ m, m ∈ placed.membersOf l.hierarchy ↔
          o.Holds m ∧ m.hierarchy = l.hierarchy ∧ ∃ k ∈ levels, k.hierarchy = l.hierarchy ∧ k.depth = m.depth) ∧
        (placed.membersOf l.hierarchy).Pairwise fun a b =>
          o.Precedes a b ∧ o.isBelow a b.uniqueName = false ∧ (a.parent = b.parent → a.ordinal < b.ordinal)) ∧
      (∀ h ∈ placed.hierarchies, ∃ l ∈ levels, l.hierarchy = h) ∧
      ∃ visible, placed.visibleLevels o.catalog = .ok visible ∧
        (∀ l, l ∈ visible ↔ l ∈ levels ∧ o.isVisible l = true ∧ o.HasMembers l) ∧
        visible.Pairwise fun a b => (a.hierarchy = b.hierarchy ∧ a.depth < b.depth) ∨
          (levels.map (·.hierarchy)).idxOf a.hierarchy < (levels.map (·.hierarchy)).idxOf b.hierarchy := by
  have hc := ho.consistent
  obtain ⟨placed, hplaced, -, hsel⟩ := hc.exists_ofSets_shown hne (mode.apply axis.hierarchize)
  refine ⟨placed, (hc.place_eq (fun l h => (hl l h).hasTable) mode hk axis).trans hplaced, ?_, ?_, hc.exists_visibleLevels hl hsel⟩
  · intro l hmem
    rw [membersOf_of_selects_shown hsel hmem]
    refine ⟨List.Nodup.of_map _ (nodup_map_arranged o _), fun m => ?_, hc.pairwise_band _ _⟩
    rw [hc.mem_band, mem_depthsIn]
  · intro h hh
    exact (hc.membersOf_of_mem_hierarchies hsel hh).1

/-- On the small cube the levels asked for are placed: the axis shows them and no others. -/
theorem sample_place_exactly :
    ∃ placed visible, ((Mutation.place sampleLevels).run sample.catalog .preserve [] {}).result = .ok placed ∧
      (∀ h ∈ placed.hierarchies, ∃ l ∈ sampleLevels, l.hierarchy = h) ∧ placed.visibleLevels sample.catalog = .ok visible ∧
      ∀ l, l ∈ visible ↔ l ∈ sampleLevels ∧ sample.isVisible l = true ∧ sample.HasMembers l := by
  have hne : sampleLevels ≠ [] := List.cons_ne_nil _ _
  have hl : ∀ l ∈ sampleLevels, sample.HasLevel l := by decide +kernel
  obtain ⟨placed, hplaced, -, hh, visible, hvisible, hmem, -⟩ :=
    orderly_sample.place_exactly hne hl .preserve (remembers_nil sample) {}
  exact ⟨placed, visible, hplaced, hh, hvisible, hmem⟩

end Outline

end CubeAxes
