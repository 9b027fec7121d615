import CubeAxes.Proofs.Outline.Editing

/-!
# When the tables agree

An outline lists unique names by level and stores members by unique name. The two tables agree (`Outline.TablesAgree`) when each level
lists members of its own, each once, in the place of its ordinal and with its parent in the level above, and each stored member is listed
at one level. Edits do not see to that: a member that is added again is listed twice, and a member may be put below one of another
hierarchy. These are the only ways to spoil it, and no later edit makes good for it (`Outline.tablesAgree_editAll_iff`).
-/

namespace CubeAxes

namespace Outline

variable {o o' : Outline} {m : Member}

/-! ## Agreement -/

/-- A row of a level stands in the place of its ordinal, it is of the level's hierarchy and depth, and unless it is at the top its parent
is a row of the level above. -/
structure RowAgrees (o : Outline) (l : Level) (i : Nat) (m : Member) : Prop where
  ordinal : m.ordinal = i
  hierarchy : m.hierarchy = l.hierarchy
  depth : m.depth = l.depth
  parent : (m.parent = none ∧ l.depth = 0) ∨ ∃ p upper ms, m.parent = some p.uniqueName ∧ o.HasLevel upper ∧
    upper.hierarchy = l.hierarchy ∧ l.depth = upper.depth + 1 ∧ o.catalog.membersOf upper none = .ok ms ∧ p ∈ ms

/-- The tables of an outline agree: no level gives a member twice, every row is in its place, and every stored member is a row of one
level and no other. -/
structure TablesAgree (o : Outline) : Prop where
  levels : ∀ l, o.HasLevel l → ∃ ms, o.catalog.membersOf l none = .ok ms ∧ (ms.map (·.uniqueName)).Nodup ∧
    ∀ i m, ms[i]? = some m → o.RowAgrees l i m
  stored : ∀ u m, o.member? u = some m → ∃! l, o.HasLevel l ∧ ∃ ms, o.catalog.membersOf l none = .ok ms ∧ m ∈ ms

/-- At every depth of a hierarchy where there is a table there is a level. -/
theorem exists_hasLevel {hierarchy : String} {depth : Nat} {t : LevelTable} (ht : o.table? hierarchy depth = some t) :
    ∃ l : Level, o.HasLevel l ∧ l.hierarchy = hierarchy ∧ l.depth = depth := by
  obtain ⟨ls, hls, hl⟩ := exists_levelsOf_of_table? ht
  exact ⟨_, ⟨ls, hls, List.mem_of_getElem? hl⟩, rfl, rfl⟩

/-- The members of a level are its rows. -/
theorem HasLevel.membersOf {l : Level} (hl : o.HasLevel l) : o.catalog.membersOf l none = .ok (o.rows l.hierarchy l.depth) := by
  obtain ⟨t, ht⟩ := hl.hasTable
  exact membersOf_none ht

/-- The row in a place is the member stored under the name that is listed there. -/
theorem Rooted.getElem?_rows (h : o.Rooted) {hierarchy : String} {depth i : Nat} :
    (o.rows hierarchy depth)[i]? = some m ↔ o.Holds m ∧ (o.names hierarchy depth)[i]? = some m.uniqueName := by
  have hnames := map_uniqueName_rows (h.listed hierarchy depth)
  have hheld : ∀ n ∈ o.rows hierarchy depth, o.Holds n := by
    intro n hn
    obtain ⟨u, -, hu⟩ := List.mem_filterMap.1 hn
    exact h.holds hu
  rw [← hnames, List.getElem?_map]
  constructor
  · intro hm
    exact ⟨hheld m (List.mem_of_getElem? hm), by rw [hm]; rfl⟩
  · rintro ⟨hm, hu⟩
    obtain ⟨n, hn, hnu⟩ := Option.map_eq_some_iff.1 hu
    rw [hn, (hheld n (List.mem_of_getElem? hn)).eq_of_uniqueName hm hnu]

/-- A rooted outline is consistent when a name is listed nowhere but in the place of its member, and no parent is of another hierarchy. -/
theorem Rooted.consistent (h : o.Rooted)
    (hlisted : ∀ hierarchy depth i m, o.Holds m → (o.names hierarchy depth)[i]? = some m.uniqueName →
      m.hierarchy = hierarchy ∧ m.depth = depth ∧ m.ordinal = i)
    (hparent : ∀ m p, o.Holds m → o.Holds p → m.parent = some p.uniqueName → p.hierarchy = m.hierarchy) : Consistent o := by
  refine ⟨?_, fun u m hm => ?_, fun m hm hpar => (h.top hm hpar).1, ?_, h.height, ?_⟩
  · intro hierarchy depth i u hu
    obtain ⟨m, hm, rfl⟩ := h.listed hierarchy depth u (List.mem_of_getElem? hu)
    exact ⟨m, hm, rfl, hlisted hierarchy depth i m hm hu⟩
  · obtain rfl := h.key u m hm
    exact ⟨rfl, h.stored m (h.holds hm)⟩
  · intro m p hm hpar
    obtain ⟨pm, hpm, rfl, hd, -⟩ := h.above hm hpar
    exact ⟨pm, hpm, rfl, hparent m pm hm hpm hpar, hd⟩
  · intro m hm
    obtain ⟨ht, hlength⟩ := h.named m hm
    exact ⟨⟨m.segments⟩, List.ne_nil_of_length_pos (hlength ▸ Nat.succ_pos _), ht⟩

/-- Where the tables agree, a rooted outline is consistent: every listed name is that of a row, and the row agrees. -/
theorem Rooted.consistent_of_tablesAgree (h : o.Rooted) (ha : o.TablesAgree) : Consistent o := by
  have hrow : ∀ hierarchy depth i m, o.Holds m → (o.names hierarchy depth)[i]? = some m.uniqueName →
      ∃ l, o.HasLevel l ∧ l.hierarchy = hierarchy ∧ l.depth = depth ∧ o.RowAgrees l i m := by
    intro hierarchy depth i m hm hi
    obtain ⟨t, ht⟩ := exists_table?_of_mem_names (List.mem_of_getElem? hi)
    obtain ⟨l, hl, rfl, rfl⟩ := exists_hasLevel ht
    obtain ⟨ms, hms, -, hagrees⟩ := ha.levels l hl
    obtain rfl := Except.ok.inj (hl.membersOf.symm.trans hms)
    exact ⟨l, hl, rfl, rfl, hagrees i m (h.getElem?_rows.2 ⟨hm, hi⟩)⟩
  refine h.consistent ?_ ?_
  · intro hierarchy depth i m hm hi
    obtain ⟨l, -, rfl, rfl, hagrees⟩ := hrow hierarchy depth i m hm hi
    exact ⟨hagrees.hierarchy, hagrees.depth, hagrees.ordinal⟩
  · intro m p hm hp hpar
    obtain ⟨l, -, hh, -, hagrees⟩ := hrow m.hierarchy m.depth m.ordinal m hm (h.stored m hm)
    rcases hagrees.parent with ⟨htop, -⟩ | ⟨q, upper, ms, hq, hupper, hhu, -, hms, hmem⟩
    · rw [hpar] at htop
      nomatch htop
    · obtain ⟨ms', hms', -, hagrees'⟩ := ha.levels upper hupper
      obtain rfl := Except.ok.inj (hms.symm.trans hms')
      obtain rfl := Except.ok.inj (hupper.membersOf.symm.trans hms)
      obtain ⟨i, hi⟩ := List.getElem?_of_mem hmem
      obtain rfl := (h.getElem?_rows.1 hi).1.eq_of_uniqueName hp (Option.some.inj (hq.symm.trans hpar))
      rw [(hagrees' i _ hi).hierarchy, hhu, hh]

/-- The rows of a consistent outline agree with their levels. -/
theorem Consistent.rowAgrees (hc : Consistent o) {l : Level} {i : Nat} (hi : (o.rows l.hierarchy l.depth)[i]? = some m) :
    o.RowAgrees l i m := by
  obtain ⟨hm, hh, hd⟩ := hc.mem_rows.1 (List.mem_of_getElem? hi)
  refine ⟨hc.ordinal_of_getElem? hi, hh, hd, ?_⟩
  cases hpar : m.parent with
  | none => exact Or.inl ⟨rfl, hd ▸ hc.top m hm hpar⟩
  | some u =>
    obtain ⟨p, hp, rfl, hph, hdepth⟩ := hc.above m u hm hpar
    obtain ⟨t, ht⟩ := hc.exists_table? hp
    obtain ⟨upper, hupper, huh, hud⟩ := exists_hasLevel ht
    refine Or.inr ⟨p, upper, _, rfl, hupper, huh.trans (hph.trans hh), by omega, hupper.membersOf, ?_⟩
    exact hc.mem_rows.2 ⟨hp, huh.symm, hud.symm⟩

/-- A member of a consistent outline is a row of one level and no other. -/
theorem Consistent.existsUnique_level (hc : Consistent o) (hm : o.Holds m) :
    ∃! l, o.HasLevel l ∧ ∃ ms, o.catalog.membersOf l none = .ok ms ∧ m ∈ ms := by
  obtain ⟨t, ht⟩ := hc.exists_table? hm
  obtain ⟨l, hl, hh, hd⟩ := exists_hasLevel ht
  refine ⟨l, ⟨hl, _, hl.membersOf, hc.mem_rows.2 ⟨hm, hh.symm, hd.symm⟩⟩, ?_⟩
  rintro l' ⟨hl', ms, hms, hmem⟩
  obtain rfl := Except.ok.inj (hl'.membersOf.symm.trans hms)
  obtain ⟨-, hh', hd'⟩ := hc.mem_rows.1 hmem
  exact hl'.eq_of_depth hl (hh'.symm.trans hh.symm) (hd'.symm.trans hd.symm)

/-- The tables of a rooted outline agree when it is consistent. -/
theorem Rooted.tablesAgree_iff (h : o.Rooted) : o.TablesAgree ↔ Consistent o := by
  refine ⟨h.consistent_of_tablesAgree, fun hc => ⟨fun l hl => ⟨_, hl.membersOf, ?_, fun i m => hc.rowAgrees⟩, fun u m hu => ?_⟩⟩
  · exact nodup_map_uniqueName (fun m hm => (hc.mem_rows.1 hm).1) (hc.nodup_rows _ _)
  · exact hc.existsUnique_level (h.holds hu)

/-! ## Edits in order -/

/-- An edit in order: a member that it adds has a name of its own, and its parent, if it has one, is of its hierarchy. -/
def InOrder (o : Outline) : OutlineEdit → Prop
  | .addMember hierarchy parent name =>
    match o.addMember hierarchy parent name with
    | .ok (_, u) => o.member? u = none ∧ ∀ p pm, parent = some p → o.member? p = some pm → pm.hierarchy = hierarchy
    | .error _ => True
  | .addHierarchy _ _ | .setLevelVisible _ _ _ => True

/-- Whether an edit is in order can be told by making it. -/
instance decidableInOrder (o : Outline) : (e : OutlineEdit) → Decidable (o.InOrder e)
  | .addHierarchy _ _ | .setLevelVisible _ _ _ => isTrue trivial
  | .addMember hierarchy parent name =>
    match h : o.addMember hierarchy parent name with
    | .error _ => isTrue (by rw [InOrder, h]; trivial)
    | .ok (_, u) =>
      decidable_of_iff (o.member? u = none ∧ ∀ pm ∈ parent.bind o.member?, pm.hierarchy = hierarchy) (by
        rw [InOrder, h]
        simp only [Option.mem_def, Option.bind_eq_some_iff, forall_exists_index, and_imp]
        exact and_congr_right fun _ => forall_comm)

/-- Edits each of which is in order when it is made. -/
def AllInOrder (o : Outline) : List OutlineEdit → Prop
  | [] => True
  | e :: es => o.InOrder e ∧ AllInOrder (o.edit e) es

/-- Whether edits are in order can be told by making them. -/
instance decidableAllInOrder (o : Outline) : (es : List OutlineEdit) → Decidable (o.AllInOrder es)
  | [] => isTrue trivial
  | e :: es => @instDecidableAnd _ _ (decidableInOrder o e) (decidableAllInOrder (o.edit e) es)

/-- Where a member of a taken name is stored, its name is listed once more, so the outline is not consistent. -/
theorem Rooted.new_of_consistent (h : o.Rooted) (hs : o.Stores m o') (hc : Consistent o') : o.member? m.uniqueName = none := by
  cases hold : o.member? m.uniqueName with
  | none => rfl
  | some n =>
    have hlisted := h.stored n (h.holds hold)
    rw [h.key _ n hold] at hlisted
    have hlt := (List.getElem?_eq_some_iff.1 hlisted).1
    obtain ⟨m', hm', hu, hh, hd, hi⟩ := hc.listed _ _ _ _ (hs.listed_of hlisted)
    obtain rfl := hm'.eq_of_uniqueName hs.holds_new hu
    -- the place of the member replaced is among those there were, and that of the new one comes after them
    rw [← hh, ← hd, ← hi, hs.ordinal] at hlt
    exact absurd hlt (Nat.lt_irrefl _)

/-- Storing a member that is placed gives a consistent outline when the outline was, the name is new, and the parent is of the member's
hierarchy. -/
theorem Rooted.consistent_stores_iff (h : o.Rooted) (hs : o.Stores m o') (hm : o.Placed m) :
    Consistent o' ↔ Consistent o ∧ o.member? m.uniqueName = none ∧
      ∀ p pm, m.parent = some p → o.member? p = some pm → pm.hierarchy = m.hierarchy := by
  constructor
  · intro hc
    have hnew := h.new_of_consistent hs hc
    have hadds := hs.adds hnew
    refine ⟨h.consistent ?_ ?_, hnew, ?_⟩
    · intro hierarchy depth i n hn hi
      obtain ⟨n', hn', hu, hplace⟩ := hc.listed _ _ _ _ (hs.listed_of hi)
      obtain rfl := hn'.eq_of_uniqueName (hadds.holds_of hn) hu
      exact hplace
    · intro n p hn hp hpar
      obtain ⟨p', hp', hu, hh, -⟩ := hc.above n _ (hadds.holds_of hn) hpar
      rw [← hp'.eq_of_uniqueName (hadds.holds_of hp) hu, hh]
    · intro p pm hpar hpm
      obtain rfl := h.key p pm hpm
      obtain ⟨p', hp', hu, hh, -⟩ := hc.above m _ hs.holds_new hpar
      rw [← hp'.eq_of_uniqueName (hadds.holds_of hpm) hu, hh]
  · rintro ⟨hc, hnew, hp⟩
    exact hc.adds (hs.adds hnew) hm hp

/-- Outlines that look alike in the two views are consistent or not together. -/
theorem consistent_iff_of_views (hm : o'.members = o.members) (hn : ∀ n d, o'.names n d = o.names n d) :
    Consistent o' ↔ Consistent o :=
  ⟨Consistent.congr hm.symm fun n d => (hn n d).symm, Consistent.congr hm hn⟩

/-- An edit gives a consistent outline when the outline was consistent and the edit is in order. -/
theorem Rooted.consistent_edit_iff (h : o.Rooted) (e : OutlineEdit) : Consistent (o.edit e) ↔ Consistent o ∧ o.InOrder e := by
  cases e with
  | addHierarchy name levels =>
    rw [InOrder, and_true]
    exact consistent_iff_of_views rfl (o.names_addHierarchy name levels)
  | addMember hierarchy parent name =>
    rw [Outline.edit, run_addMemberInPlace, InOrder]
    cases ha : o.addMember hierarchy parent name with
    | error _ => exact (and_iff_left trivial).symm
    | ok added =>
      obtain ⟨o', u⟩ := added
      obtain ⟨m, hstores, hplaced, rfl, rfl, rfl⟩ := exists_stores ha
      exact h.consistent_stores_iff hstores hplaced
  | setLevelVisible hierarchy level visible =>
    rw [Outline.edit, run_setLevelVisibleInPlace, InOrder, and_true]
    cases hs : o.setLevelVisible hierarchy level visible with
    | error _ => exact Iff.rfl
    | ok o' => exact consistent_iff_of_views (views_setLevelVisible hs).1 (views_setLevelVisible hs).2

/-- Edits give a consistent outline when the outline was consistent and each of them is in order. -/
theorem Rooted.consistent_editAll_iff (h : o.Rooted) (es : List OutlineEdit) :
    Consistent (o.editAll es) ↔ Consistent o ∧ o.AllInOrder es := by
  induction es generalizing o with
  | nil => exact (and_iff_left trivial).symm
  | cons e es ih =>
    have hrest : Consistent (o.editAll (e :: es)) ↔ Consistent (o.edit e) ∧ (o.edit e).AllInOrder es := ih (h.edit e)
    rw [hrest, h.consistent_edit_iff, AllInOrder, and_assoc]

/-- Whatever edits build an outline, each stored member is a row of its level in the place of its ordinal. That the tables agree besides,
so that this is the only place in which any level lists the member and its parent is a row of the level above in the same hierarchy, comes
to every member that was added having had a name of its own and a parent, if any, of its hierarchy. -/
theorem tablesAgree_editAll_iff (es : List OutlineEdit) :
    (∀ u m, (({} : Outline).editAll es).member? u = some m → ∃ l ms, (({} : Outline).editAll es).HasLevel l ∧
      l.hierarchy = m.hierarchy ∧ l.depth = m.depth ∧ (({} : Outline).editAll es).catalog.membersOf l none = .ok ms ∧
      ms[m.ordinal]? = some m) ∧
    ((({} : Outline).editAll es).TablesAgree ↔ ({} : Outline).AllInOrder es) := by
  have h := rooted_editAll es
  constructor
  · intro u m hu
    have hm := h.holds hu
    have hlisted := h.stored m hm
    obtain ⟨t, ht⟩ := exists_table?_of_mem_names (List.mem_of_getElem? hlisted)
    obtain ⟨l, hl, hh, hd⟩ := exists_hasLevel ht
    refine ⟨l, _, hl, hh, hd, hl.membersOf, ?_⟩
    rw [hh, hd]
    exact h.getElem?_rows.2 ⟨hm, hlisted⟩
  · rw [h.tablesAgree_iff, Rooted.empty.consistent_editAll_iff]
    exact and_iff_right Consistent.empty

/-- Edits in order, though a hierarchy is declared again and two edits fail. -/
def sampleInOrder : List OutlineEdit :=
  [.addHierarchy "A" ["L", "M"], .addMember "A" none "a", .addHierarchy "A" ["N"], .addMember "A" (some "[A].[a]") "b",
    .addMember "C" none "c", .setLevelVisible "A" "N" false, .addMember "A" (some "[A].[a]") "b]"]

/-- After those edits the tables agree, and the member that was added last is the second row of its level. -/
theorem sampleInOrder_tablesAgree :
    (({} : Outline).editAll sampleInOrder).TablesAgree ∧
      ∃ l ms, l.depth = 1 ∧ (({} : Outline).editAll sampleInOrder).catalog.membersOf l none = .ok ms ∧
        ms[1]?.map (·.uniqueName) = some "[A].[a].[b]]]" := by
  obtain ⟨hrun, hstored⟩ :
      ({} : Outline).AllInOrder sampleInOrder ∧
      ((({} : Outline).editAll sampleInOrder).member? "[A].[a].[b]]]").any (fun m =>
        decide (m.uniqueName = "[A].[a].[b]]]" ∧ m.depth = 1 ∧ m.ordinal = 1)) = true := by
    decide +kernel
  obtain ⟨hrows, hagree⟩ := tablesAgree_editAll_iff sampleInOrder
  refine ⟨hagree.2 hrun, ?_⟩
  obtain ⟨m, hm, hspec⟩ := (Option.any_eq_true _ _).1 hstored
  obtain ⟨hu, hd, hi⟩ := of_decide_eq_true hspec
  obtain ⟨l, ms, -, -, hdepth, hms, hrow⟩ := hrows _ m hm
  rw [hi] at hrow
  exact ⟨l, ms, hdepth.trans hd, hms, by rw [hrow, Option.map_some, hu]⟩

/-- The outline after a member was added twice. -/
def sampleTwice : Outline := ({} : Outline).editAll [.addHierarchy "A" ["L"], .addMember "A" none "a", .addMember "A" none "a"]

/-- The outline after a member was added below one of another hierarchy. -/
def sampleForeign : Outline :=
  ({} : Outline).editAll
    [.addHierarchy "A" ["L"], .addHierarchy "B" ["M", "N"], .addMember "A" none "a", .addMember "B" (some "[A].[a]") "b"]

/-- A member that is added twice is listed twice, and a parent of another hierarchy is in no level of the member's. -/
theorem sample_tables_disagree : ¬sampleTwice.TablesAgree ∧ ¬sampleForeign.TablesAgree := by
  obtain ⟨htwice, hrows, hlower, hupper, hnone, hrow⟩ :
      sampleTwice.HasLevel ⟨"A", "L", 0⟩ ∧
      ((sampleTwice.catalog.membersOf ⟨"A", "L", 0⟩ none).toOption.any fun ms =>
        decide (ms.map (·.uniqueName) = ["[A].[a]", "[A].[a]"])) = true ∧
      sampleForeign.HasLevel ⟨"B", "N", 1⟩ ∧ sampleForeign.HasLevel ⟨"B", "M", 0⟩ ∧
      sampleForeign.catalog.membersOf ⟨"B", "M", 0⟩ none = .ok [] ∧
      ((sampleForeign.catalog.membersOf ⟨"B", "N", 1⟩ none).toOption.any fun ms => decide (ms[0]?.isSome)) = true := by
    decide +kernel
  constructor
  · intro h
    obtain ⟨ms, hms, hnodup, -⟩ := h.levels _ htwice
    rw [hms] at hrows
    rw [of_decide_eq_true hrows] at hnodup
    exact absurd hnodup (by decide)
  · intro h
    obtain ⟨ms, hms, -, hagrees⟩ := h.levels _ hlower
    rw [hms] at hrow
    obtain ⟨m, hm⟩ := Option.isSome_iff_exists.1 (of_decide_eq_true hrow)
    rcases (hagrees 0 m hm).parent with ⟨-, hd⟩ | ⟨p, upper, ms', -, hu, hh, hd, hms', hp⟩
    · nomatch hd
    · obtain rfl := hu.eq_of_depth hupper hh (Nat.succ.inj hd.symm)
      obtain rfl := Except.ok.inj (hnone.symm.trans hms')
      exact List.not_mem_nil hp

end Outline

end CubeAxes
