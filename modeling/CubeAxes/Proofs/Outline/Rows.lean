import Mathlib.Data.List.Nodup
import CubeAxes.Ancestry
import CubeAxes.Proofs.Outline.Orderly

/-!
# What a consistent outline answers

The members at a depth of a hierarchy (`Outline.rows`) are those that are held there, in the order of their ordinals, which tell
them apart. Every level that holds a member is among the levels of its hierarchy, in the place of its depth.
-/

namespace CubeAxes

namespace Outline

variable {o : Outline}

/-- The members at a depth of a hierarchy, in catalog order. -/
def rows (o : Outline) (hierarchy : String) (depth : Nat) : List Member := (o.names hierarchy depth).filterMap o.member?

/-- Two members that are held under one name are one. -/
theorem Holds.eq_of_uniqueName {m n : Member} (hm : o.Holds m) (hn : o.Holds n) (h : m.uniqueName = n.uniqueName) : m = n := by
  rw [Holds, h, hn] at hm
  exact (Option.some.inj hm).symm

/-- Members that are held and distinct have distinct unique names. -/
theorem nodup_map_uniqueName {ms : List Member} (hms : ∀ m ∈ ms, o.Holds m) (h : ms.Nodup) : (ms.map (·.uniqueName)).Nodup :=
  List.Nodup.map_on (fun m hm n hn e => (hms m hm).eq_of_uniqueName (hms n hn) e) h

/-- A member stored under a name is held. -/
theorem Consistent.holds {u : String} {m : Member} (hc : Consistent o) (h : o.member? u = some m) : o.Holds m := by
  rw [Holds, (hc.stored u m h).1]
  exact h

/-- The rows of a level are the members that are held there. -/
theorem Consistent.mem_rows (hc : Consistent o) {hierarchy : String} {depth : Nat} {m : Member} :
    m ∈ o.rows hierarchy depth ↔ o.Holds m ∧ m.hierarchy = hierarchy ∧ m.depth = depth := by
  rw [rows, List.mem_filterMap]
  constructor
  · rintro ⟨u, hu, hm⟩
    obtain ⟨i, hi⟩ := List.getElem?_of_mem hu
    obtain ⟨n, hn, rfl, hh, hd, -⟩ := hc.listed hierarchy depth i u hi
    obtain rfl : n = m := hn.eq_of_uniqueName (hc.holds hm) (hc.stored _ m hm).1.symm
    exact ⟨hn, hh, hd⟩
  · rintro ⟨hm, rfl, rfl⟩
    exact ⟨m.uniqueName, List.mem_of_getElem? (hc.stored _ m hm).2, hm⟩

/-- A level has members when it has rows. -/
theorem Consistent.hasMembers_iff (hc : Consistent o) {l : Level} : o.HasMembers l ↔ o.rows l.hierarchy l.depth ≠ [] := by
  constructor
  · rintro ⟨m, hm⟩
    exact List.ne_nil_of_mem (hc.mem_rows.2 hm)
  · intro h
    obtain ⟨m, hm⟩ := List.exists_mem_of_ne_nil _ h
    exact ⟨m, hc.mem_rows.1 hm⟩

/-- Where every name that is listed is stored, the rows of a level have the names that are listed, in their order. -/
theorem map_uniqueName_rows {hierarchy : String} {depth : Nat}
    (h : ∀ u ∈ o.names hierarchy depth, ∃ m, o.Holds m ∧ m.uniqueName = u) :
    (o.rows hierarchy depth).map (·.uniqueName) = o.names hierarchy depth := by
  have hall : ∀ u ∈ o.names hierarchy depth, (o.member? u).map (·.uniqueName) = some u := by
    intro u hu
    obtain ⟨m, hm, rfl⟩ := h u hu
    rw [hm]
    rfl
  rw [rows, List.map_filterMap, List.filterMap_congr hall, List.filterMap_some]

/-- In a consistent outline the rows of a level have the names that are listed. -/
theorem Consistent.map_uniqueName_rows (hc : Consistent o) (hierarchy : String) (depth : Nat) :
    (o.rows hierarchy depth).map (·.uniqueName) = o.names hierarchy depth := by
  refine Outline.map_uniqueName_rows fun u hu => ?_
  obtain ⟨i, hi⟩ := List.getElem?_of_mem hu
  obtain ⟨m, hm, hmu, -⟩ := hc.listed hierarchy depth i u hi
  exact ⟨m, hm, hmu⟩

/-- The row in a place has the place as its ordinal. -/
theorem Consistent.ordinal_of_getElem? (hc : Consistent o) {hierarchy : String} {depth i : Nat} {m : Member}
    (h : (o.rows hierarchy depth)[i]? = some m) : m.ordinal = i := by
  have hu : (o.names hierarchy depth)[i]? = some m.uniqueName := by
    rw [← hc.map_uniqueName_rows, List.getElem?_map, h]
    rfl
  have hm := (hc.mem_rows.1 (List.mem_of_getElem? h)).1
  obtain ⟨n, hn, hnu, -, -, hi⟩ := hc.listed hierarchy depth i _ hu
  exact hn.eq_of_uniqueName hm hnu ▸ hi

/-- The rows of a level stand in the order of their ordinals. -/
theorem Consistent.pairwise_rows (hc : Consistent o) (hierarchy : String) (depth : Nat) :
    (o.rows hierarchy depth).Pairwise fun m n => m.ordinal < n.ordinal := by
  rw [List.pairwise_iff_getElem]
  intro i j hi hj hij
  rw [hc.ordinal_of_getElem? (List.getElem?_eq_getElem hi), hc.ordinal_of_getElem? (List.getElem?_eq_getElem hj)]
  exact hij

/-- No row is repeated. -/
theorem Consistent.nodup_rows (hc : Consistent o) (hierarchy : String) (depth : Nat) : (o.rows hierarchy depth).Nodup :=
  (hc.pairwise_rows hierarchy depth).imp fun h e => Nat.ne_of_lt h (congrArg Member.ordinal e)

/-- Within a level the ordinal tells members apart. -/
theorem Consistent.eq_of_ordinal (hc : Consistent o) {m n : Member} (hm : o.Holds m) (hn : o.Holds n)
    (hh : m.hierarchy = n.hierarchy) (hd : m.depth = n.depth) (ho : m.ordinal = n.ordinal) : m = n := by
  have h₁ := (hc.stored _ m hm).2
  have h₂ := (hc.stored _ n hn).2
  rw [hh, hd, ho, h₂] at h₁
  exact hm.eq_of_uniqueName hn (Option.some.inj h₁).symm

/-! ## Levels -/

/-- The levels of a hierarchy stand at their depths. -/
theorem getElem?_levelsFrom (hierarchy : String) (start : Nat) (ts : List LevelTable) (i : Nat) :
    (levelsFrom hierarchy start ts)[i]? = ts[i]?.map fun t => ⟨hierarchy, t.name, start + i⟩ := by
  induction ts generalizing start i with
  | nil => rfl
  | cons t ts ih =>
    cases i with
    | zero => rfl
    | succ i => rw [levelsFrom, List.getElem?_cons_succ, List.getElem?_cons_succ, ih, Nat.add_right_comm, Nat.add_assoc]

/-- The levels of a declared hierarchy are given. -/
theorem levelsOf_of_hierarchy? {name : String} {h : HierarchyTable} (hh : o.hierarchy? name = some h) :
    o.levelsOf name = .ok (levelsFrom name 0 h.levels) := by
  rw [levelsOf, Outline.hierarchy, hh, ok_bind, name_of_hierarchy? hh]
  rfl

/-- A level with a table is among the levels of its hierarchy, in the place of its depth. -/
theorem exists_levelsOf_of_table? {hierarchy : String} {depth : Nat} {t : LevelTable}
    (ht : o.table? hierarchy depth = some t) :
    ∃ ls, o.levelsOf hierarchy = .ok ls ∧ ls[depth]? = some ⟨hierarchy, t.name, depth⟩ := by
  obtain ⟨h, hh, htable⟩ := Option.bind_eq_some_iff.1 ht
  refine ⟨_, levelsOf_of_hierarchy? hh, ?_⟩
  rw [getElem?_levelsFrom, htable, Option.map_some, Nat.zero_add]

/-- A level that the outline gives has a table, and stands in the place of its depth. -/
theorem HasLevel.exists_table? {l : Level} (h : o.HasLevel l) :
    ∃ t ls, o.table? l.hierarchy l.depth = some t ∧ o.levelsOf l.hierarchy = .ok ls ∧ ls[l.depth]? = some l := by
  obtain ⟨ls, hls, hl⟩ := h
  obtain ⟨hierarchy, name, depth⟩ := l
  have hls' := hls
  obtain ⟨t, ht, h⟩ := bind_eq_ok hls
  have hh := hierarchy?_of_hierarchy ht
  rw [levelsOf_of_hierarchy? hh] at hls'
  obtain rfl := Except.ok.inj hls'
  obtain ⟨i, hi⟩ := List.getElem?_of_mem hl
  have hi' := hi
  rw [getElem?_levelsFrom] at hi'
  obtain ⟨table, htable, he⟩ := Option.map_eq_some_iff.1 hi'
  obtain ⟨-, -, rfl⟩ := Level.mk.inj he
  rw [Nat.zero_add] at hi ⊢
  refine ⟨table, _, ?_, hls, hi⟩
  rw [table?, hh]
  exact htable

theorem HasLevel.hasTable {l : Level} (h : o.HasLevel l) : o.HasTable l := by
  obtain ⟨t, -, ht, -⟩ := h.exists_table?
  exact ⟨t, ht⟩

/-- Within a hierarchy the depth tells levels apart. -/
theorem HasLevel.eq_of_depth {l l' : Level} (h : o.HasLevel l) (h' : o.HasLevel l') (hh : l.hierarchy = l'.hierarchy)
    (hd : l.depth = l'.depth) : l = l' := by
  obtain ⟨-, ls, -, hls, hl⟩ := h.exists_table?
  obtain ⟨-, ls', -, hls', hl'⟩ := h'.exists_table?
  rw [hh, hls'] at hls
  obtain rfl := Except.ok.inj hls
  rw [hd, hl'] at hl
  exact (Option.some.inj hl).symm

/-- A level at which a member is held has a table. -/
theorem Consistent.exists_table? (hc : Consistent o) {m : Member} (hm : o.Holds m) :
    ∃ t, o.table? m.hierarchy m.depth = some t :=
  exists_table?_of_mem_names (List.mem_of_getElem? (hc.stored _ m hm).2)

/-- A level that has members has a table. -/
theorem Consistent.hasTable (hc : Consistent o) {l : Level} (h : o.HasMembers l) : o.HasTable l := by
  obtain ⟨m, hm, hh, hd⟩ := h
  rw [HasTable, ← hh, ← hd]
  exact hc.exists_table? hm

/-- The members of a level with a table are its rows. -/
theorem membersOf_none {l : Level} {t : LevelTable} (ht : o.table? l.hierarchy l.depth = some t) :
    o.catalog.membersOf l none = .ok (o.rows l.hierarchy l.depth) := by
  obtain ⟨h, hh, htable⟩ := Option.bind_eq_some_iff.1 ht
  simp only [catalog, membersOf, Outline.hierarchy, hh, ok_bind, htable, rows, names_of_table? ht]
  rfl

/-- The members of a level with a table below another member are those of its rows that are below it. -/
theorem membersOf_some {l : Level} {t : LevelTable} (ht : o.table? l.hierarchy l.depth = some t) (a : Member) :
    o.catalog.membersOf l (some a) = .ok ((o.rows l.hierarchy l.depth).filter fun m => o.isBelow m a.uniqueName) := by
  obtain ⟨h, hh, htable⟩ := Option.bind_eq_some_iff.1 ht
  simp only [catalog, membersOf, Outline.hierarchy, hh, ok_bind, htable, rows, names_of_table? ht]
  rfl

/-- A member that is held is found under its unique name. -/
theorem Holds.find? {m : Member} (hm : o.Holds m) : o.find? m.uniqueName = some m := by
  rw [Outline.find?, hm]

/-- Looking up the name of a member that is held gives the member. -/
theorem Holds.lookup {m : Member} (hm : o.Holds m) : o.catalog.lookup m.uniqueName = .ok m := by
  have hfind : o.catalog.member m.uniqueName = .ok (some m) := congrArg Except.ok hm.find?
  rw [Catalog.lookup, hfind]
  rfl

/-- A member that is looked up is stored, also when it was found by a short name. -/
theorem exists_member?_of_lookup {name : String} {m : Member} (h : o.catalog.lookup name = .ok m) : ∃ u, o.member? u = some m := by
  obtain ⟨found, hf, h⟩ := bind_eq_ok h
  obtain rfl := Except.ok.inj (of_asked_eq_ok hf)
  cases hm : o.find? name with
  | none =>
    rw [hm] at h
    nomatch h
  | some n =>
    rw [hm] at h
    obtain rfl := Except.ok.inj h
    unfold Outline.find? at hm
    split at hm
    · next n hn =>
      obtain rfl := Option.some.inj hm
      exact ⟨name, hn⟩
    · obtain ⟨u, -, hn⟩ := Option.bind_eq_some_iff.1 hm
      exact ⟨u, hn⟩

end Outline

end CubeAxes
