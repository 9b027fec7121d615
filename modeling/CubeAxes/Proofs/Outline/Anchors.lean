import CubeAxes.Proofs.Outline.Drilling

/-!
# Anchors

Drilling members to a level starts from the deepest of them above it, its anchors. What comes of it is said here by ancestors alone
(`Outline.DrillsTo`), whether there are anchors or the level is reached from below; the catalog gives just that
(`Outline.Consistent.exists_expand_drillsTo`). A level that is filled in between the anchors and a deeper level changes nothing of what
comes at the deeper one (`Outline.Consistent.drillsTo_through`), and the deeper one nothing of what comes in between
(`Outline.Consistent.drillsTo_beside`). So drilling to a level once more changes nothing (`Outline.Consistent.drillsTo_again`).
-/

namespace CubeAxes

namespace Outline

/-- A member is a descendant of another at a level. -/
def DescendsTo (o : Outline) (a : Member) (l : Level) (m : Member) : Prop :=
  (o.Holds m ∧ m.hierarchy = l.hierarchy ∧ m.depth = l.depth) ∧ a.depth < l.depth ∧ o.ancestor m a.depth = a

/-- A member comes of drilling some members to a level: it is a descendant there of one of the deepest of them above the level or, where
none of them is above it, the ancestor there of one of them. -/
def DrillsTo (o : Outline) (selected : List Member) (l : Level) (m : Member) : Prop :=
  (∃ a ∈ selected, (∀ s ∈ selected, s.depth < l.depth → s.depth ≤ a.depth) ∧ o.DescendsTo a l m) ∨
    (∀ s ∈ selected, l.depth ≤ s.depth) ∧ ∃ s ∈ selected, o.ancestor s l.depth = m

variable {o : Outline} {l : Level} {selected selected' : List Member}

/-- Of members some of which are above a level there is a deepest one above it. -/
theorem exists_anchor (h : ∃ s ∈ selected, s.depth < l.depth) :
    ∃ a ∈ selected, a.depth < l.depth ∧ ∀ s ∈ selected, s.depth < l.depth → s.depth ≤ a.depth := by
  cases hd : anchorDepth? selected l with
  | none =>
    obtain ⟨s, hs, hlt⟩ := h
    exact absurd (anchorDepth?_eq_none.1 hd s hs) (Nat.not_le.2 hlt)
  | some d =>
    obtain ⟨⟨a, ha, rfl⟩, hlt, hmax⟩ := anchorDepth?_eq_some.1 hd
    exact ⟨a, ha, hlt, hmax⟩

/-- What comes of drilling depends on which members are selected only. -/
theorem drillsTo_congr (h : ∀ m, m ∈ selected ↔ m ∈ selected') (m : Member) : o.DrillsTo selected l m ↔ o.DrillsTo selected' l m := by
  simp only [DrillsTo, h]

/-- From anchors come the members of the level whose ancestor at the depth of the anchors is selected. -/
theorem Consistent.drillsTo_iff_of_anchor (hc : Consistent o) {a : Member} (ha : a ∈ selected) (hlt : a.depth < l.depth)
    (hmax : ∀ s ∈ selected, s.depth < l.depth → s.depth ≤ a.depth) {m : Member} :
    o.DrillsTo selected l m ↔ (o.Holds m ∧ m.hierarchy = l.hierarchy ∧ m.depth = l.depth) ∧ o.ancestor m a.depth ∈ selected := by
  constructor
  · intro h
    rcases h with ⟨b, hb, hbmax, hm, hblt, hanc⟩ | ⟨hnone, -⟩
    · have hdepth : a.depth = b.depth := Nat.le_antisymm (hbmax a ha hlt) (hmax b hb hblt)
      refine ⟨hm, ?_⟩
      rw [hdepth, hanc]
      exact hb
    · exact absurd (hnone a ha) (Nat.not_le.2 hlt)
  · intro h
    obtain ⟨hm, hanc⟩ := h
    have hdepth : (o.ancestor m a.depth).depth = a.depth := hc.depth_ancestor hm.1 (by omega)
    refine Or.inl ⟨_, hanc, ?_, hm, ?_, ?_⟩
    · rw [hdepth]
      exact hmax
    · rw [hdepth]
      exact hlt
    · rw [hdepth]

/-- Where nothing is above the level, the ancestors of what is selected come. -/
theorem drillsTo_iff_of_forall_le (h : ∀ s ∈ selected, l.depth ≤ s.depth) {m : Member} :
    o.DrillsTo selected l m ↔ ∃ s ∈ selected, o.ancestor s l.depth = m := by
  constructor
  · intro hm
    rcases hm with ⟨a, ha, -, -, hlt, -⟩ | ⟨-, hanc⟩
    · exact absurd (h a ha) (Nat.not_le.2 hlt)
    · exact hanc
  · intro hanc
    exact Or.inr ⟨h, hanc⟩

/-- What comes of drilling are members of the level. -/
theorem Consistent.spec_of_drillsTo (hc : Consistent o) (hs : o.HoldsAll l.hierarchy selected) {m : Member}
    (h : o.DrillsTo selected l m) : o.Holds m ∧ m.hierarchy = l.hierarchy ∧ m.depth = l.depth := by
  rcases h with ⟨-, -, -, hm, -, -⟩ | ⟨hle, s, hmem, rfl⟩
  · exact hm
  · obtain ⟨hheld, hh⟩ := hs s hmem
    obtain ⟨ha, hah, had⟩ := hc.ancestor_spec hheld (hle s hmem)
    exact ⟨ha, hah.trans hh, had⟩

/-- The catalog drills to a level that it has, and gives what comes of that. -/
theorem Consistent.exists_expand_drillsTo (hc : Consistent o) (hl : o.HasTable l) (hs : o.HoldsAll l.hierarchy selected) :
    ∃ ms, o.catalog.expand selected l = .ok ms ∧ ∀ m, m ∈ ms ↔ o.DrillsTo selected l m := by
  cases hd : anchorDepth? selected l with
  | some d =>
    obtain ⟨t, ht⟩ := hl
    obtain ⟨⟨a, ha, rfl⟩, hlt, hmax⟩ := anchorDepth?_eq_some.1 hd
    obtain ⟨ms, hms, hmem⟩ := hc.exists_expand_of_anchor ht hs hd
    exact ⟨ms, hms, fun m => (hmem m).trans (hc.drillsTo_iff_of_anchor ha hlt hmax).symm⟩
  | none =>
    have hle := anchorDepth?_eq_none.1 hd
    obtain ⟨ms, hms, hmem⟩ := hc.exists_expand_of_le (fun s hsel => (hs s hsel).1) hle
    exact ⟨ms, hms, fun m => (hmem m).trans (drillsTo_iff_of_forall_le hle).symm⟩

/-! ## Two levels of a hierarchy -/

variable {upper lower : Level}

/-- Where nothing selected is between two levels but something is above both, filling in the upper one first changes nothing of what
comes at the lower one. If it brings in nothing, the anchors stay; else what it brings in are the anchors, and these lie below the old
ones. -/
theorem Consistent.drillsTo_through (hc : Consistent o) (hs : o.HoldsAll upper.hierarchy selected)
    (hh : lower.hierarchy = upper.hierarchy) (hlt : upper.depth < lower.depth) (habove : ∃ s ∈ selected, s.depth < upper.depth)
    (hbetween : ∀ s ∈ selected, s.depth < lower.depth → s.depth < upper.depth)
    (hmem : ∀ m, m ∈ selected' ↔ m ∈ selected ∨ o.DrillsTo selected upper m) (m : Member) :
    o.DrillsTo selected' lower m ↔ o.DrillsTo selected lower m := by
  obtain ⟨a, ha, halt, hmax⟩ := exists_anchor habove
  have hupper : ∀ n, o.DrillsTo selected upper n ↔
      (o.Holds n ∧ n.hierarchy = upper.hierarchy ∧ n.depth = upper.depth) ∧ o.ancestor n a.depth ∈ selected :=
    fun n => hc.drillsTo_iff_of_anchor ha halt hmax
  have hlower : o.DrillsTo selected lower m ↔
      (o.Holds m ∧ m.hierarchy = lower.hierarchy ∧ m.depth = lower.depth) ∧ o.ancestor m a.depth ∈ selected := by
    refine hc.drillsTo_iff_of_anchor ha (by omega) ?_
    intro s hsel hslt
    exact hmax s hsel (hbetween s hsel hslt)
  by_cases hnew : ∃ b, o.DrillsTo selected upper b
  · obtain ⟨b, hb⟩ := hnew
    have hbd : b.depth = upper.depth := (hc.spec_of_drillsTo hs hb).2.2
    have hbmax : ∀ s ∈ selected', s.depth < lower.depth → s.depth ≤ b.depth := by
      intro s hsel hslt
      rcases (hmem s).1 hsel with hsel | hsel
      · have := hbetween s hsel hslt
        omega
      · have := (hc.spec_of_drillsTo hs hsel).2.2
        omega
    rw [hc.drillsTo_iff_of_anchor ((hmem b).2 (Or.inr hb)) (by omega) hbmax, hlower, hbd]
    refine and_congr_right fun hm => ?_
    obtain ⟨hah, hahh, had⟩ := hc.ancestor_spec hm.1 (d := upper.depth) (by omega)
    have hold : o.ancestor m upper.depth ∉ selected := by
      intro hin
      have := hbetween _ hin (by omega)
      omega
    rw [hmem, or_iff_right hold, hupper, hc.ancestor_ancestor hm.1 (by omega) (by omega)]
    exact and_iff_right ⟨hah, hahh.trans (hm.2.1.trans hh), had⟩
  · refine drillsTo_congr (fun n => ?_) m
    rw [hmem]
    exact or_iff_left fun hn => hnew ⟨n, hn⟩

/-- Where something selected is above a level, filling in one that is not above it first changes nothing of what comes there. -/
theorem Consistent.drillsTo_beside (hc : Consistent o) (hs : o.HoldsAll lower.hierarchy selected) (hle : upper.depth ≤ lower.depth)
    (habove : ∃ s ∈ selected, s.depth < upper.depth)
    (hmem : ∀ m, m ∈ selected' ↔ m ∈ selected ∨ o.DrillsTo selected lower m) (m : Member) :
    o.DrillsTo selected' upper m ↔ o.DrillsTo selected upper m := by
  obtain ⟨a, ha, halt, hmax⟩ := exists_anchor habove
  have hdeep : ∀ n, o.DrillsTo selected lower n → n.depth = lower.depth := fun n hn => (hc.spec_of_drillsTo hs hn).2.2
  have hmax' : ∀ s ∈ selected', s.depth < upper.depth → s.depth ≤ a.depth := by
    intro s hsel hslt
    rcases (hmem s).1 hsel with hsel | hsel
    · exact hmax s hsel hslt
    · have := hdeep s hsel
      omega
  rw [hc.drillsTo_iff_of_anchor ((hmem a).2 (Or.inl ha)) halt hmax', hc.drillsTo_iff_of_anchor ha halt hmax]
  refine and_congr_right fun hm => ?_
  rw [hmem]
  refine or_iff_left fun hin => ?_
  have hd := hdeep _ hin
  rw [hc.depth_ancestor hm.1 (by omega)] at hd
  omega

/-- Members that are all at a level are what comes of drilling them there. -/
theorem drillsTo_of_depth_eq (h : ∀ s ∈ selected, s.depth = l.depth) {m : Member} : o.DrillsTo selected l m ↔ m ∈ selected := by
  rw [drillsTo_iff_of_forall_le fun s hs => Nat.le_of_eq (h s hs).symm]
  constructor
  · rintro ⟨s, hs, rfl⟩
    rwa [← h s hs, ancestor_self]
  · intro hm
    exact ⟨m, hm, by rw [← h m hm, ancestor_self]⟩

/-- What came of drilling to a level brings in nothing new there. -/
theorem Consistent.drillsTo_again (hc : Consistent o) (hs : o.HoldsAll l.hierarchy selected)
    (hmem : ∀ m, m ∈ selected' ↔ m ∈ selected ∨ o.DrillsTo selected l m) (m : Member) :
    o.DrillsTo selected' l m ↔ o.DrillsTo selected l m := by
  by_cases habove : ∃ s ∈ selected, s.depth < l.depth
  · exact hc.drillsTo_beside hs (Nat.le_refl _) habove hmem m
  · have hle : ∀ s ∈ selected, l.depth ≤ s.depth := fun s hsel => Nat.not_lt.1 fun hlt => habove ⟨s, hsel, hlt⟩
    have hat : ∀ n, o.DrillsTo selected l n → n.depth = l.depth := fun n hn => (hc.spec_of_drillsTo hs hn).2.2
    have hle' : ∀ s ∈ selected', l.depth ≤ s.depth := by
      intro s hsel
      rcases (hmem s).1 hsel with hsel | hsel
      · exact hle s hsel
      · exact Nat.le_of_eq (hat s hsel).symm
    rw [drillsTo_iff_of_forall_le hle']
    constructor
    · rintro ⟨s, hsel, rfl⟩
      rcases (hmem s).1 hsel with hsel | hsel
      · exact (drillsTo_iff_of_forall_le hle).2 ⟨s, hsel, rfl⟩
      · -- what was reached from below is its own ancestor at the level
        rwa [← hat s hsel, ancestor_self]
    · intro h
      exact ⟨m, (hmem m).2 (Or.inr h), by rw [← hat m h, ancestor_self]⟩

end Outline

end CubeAxes
