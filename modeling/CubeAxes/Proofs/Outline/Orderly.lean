import CubeAxes.Outline
import CubeAxes.Proofs.Answers

/-!
# Orderly outlines

An outline is orderly when it was built in good order: no hierarchy is declared twice, a member's parent is of the member's own
hierarchy, and no unique name is taken twice. The statements about edits say what each of them does to the two views that answer
every question: the unique names listed at a depth of a hierarchy (`Outline.names`), and the member of a unique name. From them
an induction over the edits gives `Consistent`: the two tables agree, and every member has its parent one level above.
-/

namespace CubeAxes

namespace Outline

/-! ## Two views of the tables -/

/-- The table of a level, found by its hierarchy and its depth. -/
def table? (o : Outline) (hierarchy : String) (depth : Nat) : Option LevelTable :=
  (o.hierarchy? hierarchy).bind (·.levels[depth]?)

/-- The unique names listed at a depth of a hierarchy. -/
def names (o : Outline) (hierarchy : String) (depth : Nat) : List String :=
  ((o.table? hierarchy depth).map (·.members)).getD []

/-- A member that is stored under its unique name as it is. -/
def Holds (o : Outline) (m : Member) : Prop := o.member? m.uniqueName = some m

/-- A level that the outline gives among those of its hierarchy. -/
def HasLevel (o : Outline) (l : Level) : Prop := ∃ ls, o.levelsOf l.hierarchy = .ok ls ∧ l ∈ ls

/-- Whether an outline gives a level can be told from the levels of its hierarchy. -/
instance decidableHasLevel (o : Outline) (l : Level) : Decidable (o.HasLevel l) :=
  match h : o.levelsOf l.hierarchy with
  | .ok ls => decidable_of_iff (l ∈ ls) ⟨fun hl => ⟨ls, h, hl⟩, fun ⟨_, h', hl⟩ => Except.ok.inj (h.symm.trans h') ▸ hl⟩
  | .error _ => isFalse fun ⟨_, h', _⟩ => nomatch h.symm.trans h'

/-- A level at whose depth its hierarchy has a table, whatever the level is called. -/
def HasTable (o : Outline) (l : Level) : Prop := ∃ t, o.table? l.hierarchy l.depth = some t

/-- A level at which some member is stored. -/
def HasMembers (o : Outline) (l : Level) : Prop := ∃ m, o.Holds m ∧ m.hierarchy = l.hierarchy ∧ m.depth = l.depth

/-- The names at a depth are those of its table. -/
theorem names_of_table? {o : Outline} {hierarchy : String} {depth : Nat} {t : LevelTable}
    (h : o.table? hierarchy depth = some t) : o.names hierarchy depth = t.members := by
  rw [names, h]
  rfl

/-- Where a name is listed there is a table. -/
theorem exists_table?_of_mem_names {o : Outline} {hierarchy u : String} {depth : Nat} (h : u ∈ o.names hierarchy depth) :
    ∃ t, o.table? hierarchy depth = some t := by
  cases ht : o.table? hierarchy depth with
  | some t => exact ⟨t, rfl⟩
  | none =>
    rw [names, ht] at h
    exact absurd h List.not_mem_nil

/-- The hierarchy found under a name has the name. -/
theorem name_of_hierarchy? {o : Outline} {name : String} {h : HierarchyTable} (hh : o.hierarchy? name = some h) :
    h.name = name := by
  simpa using List.find?_some hh

/-- A hierarchy that is given is found under its name. -/
theorem hierarchy?_of_hierarchy {o : Outline} {name : String} {h : HierarchyTable} (hh : o.hierarchy name = .ok h) :
    o.hierarchy? name = some h := by
  unfold Outline.hierarchy at hh
  split at hh
  · next h' hh' => exact hh'.trans (congrArg some (Except.ok.inj hh))
  · nomatch hh

/-! ## What the edits do to the views -/

/-- Changing the first entry keeps whatever a change of an entry keeps. -/
theorem map_changeFirst {α β : Type} {test : α → Bool} {change : α → α} {f : α → β} (h : ∀ a, f (change a) = f a)
    (l : List α) : (changeFirst test change l).map f = l.map f := by
  induction l with
  | nil => rfl
  | cons a l ih =>
    rw [changeFirst]
    split
    · rw [List.map_cons, List.map_cons, h]
    · rw [List.map_cons, List.map_cons, ih]

/-- Changing the levels of a hierarchy is seen under its name only. -/
theorem hierarchy?_changeLevels (o : Outline) (name : String) (change : List LevelTable → List LevelTable) (n : String) :
    (o.changeLevels name change).hierarchy? n =
      (o.hierarchy? n).map fun h => if n = name then { h with levels := change h.levels } else h := by
  simp only [hierarchy?, changeLevels]
  induction o.hierarchies with
  | nil => rfl
  | cons h hs ih =>
    rw [changeFirst]
    by_cases hn : h.name = name
    · rw [if_pos (decide_eq_true hn)]
      by_cases hh : h.name = n
      · rw [List.find?_cons_of_pos (by simpa using hh), List.find?_cons_of_pos (by simpa using hh), Option.map_some,
          if_pos (hh.symm.trans hn)]
      · have hne : n ≠ name := fun e => hh (hn.trans e.symm)
        rw [List.find?_cons_of_neg (by simpa using hh), List.find?_cons_of_neg (by simpa using hh)]
        simp only [hne, if_false, Option.map_id']
    · rw [if_neg (by simpa using hn)]
      by_cases hh : h.name = n
      · have hne : n ≠ name := fun e => hn (hh.trans e)
        rw [List.find?_cons_of_pos (by simpa using hh), List.find?_cons_of_pos (by simpa using hh), Option.map_some, if_neg hne]
      · rw [List.find?_cons_of_neg (by simpa using hh), List.find?_cons_of_neg (by simpa using hh), ih]

/-- Declaring a hierarchy lists no member: where the name is taken the first declaration counts. -/
theorem names_addHierarchy (o : Outline) (name : String) (levels : List String) (hierarchy : String) (depth : Nat) :
    (o.addHierarchy name levels).names hierarchy depth = o.names hierarchy depth := by
  have hf : (o.addHierarchy name levels).hierarchy? hierarchy =
      (o.hierarchy? hierarchy).or (if name = hierarchy then some ⟨name, levels.map fun l => ⟨l, true, []⟩⟩ else none) := by
    rw [hierarchy?, addHierarchy, List.find?_append]
    by_cases h : name = hierarchy <;> simp [hierarchy?, h]
  rw [names, names, table?, table?, hf]
  cases o.hierarchy? hierarchy with
  | some h => rfl
  | none =>
    rw [Option.none_or]
    split
    · simp only [Option.bind_some, List.getElem?_map, Option.bind_none, Option.map_none, Option.getD_none, Option.map_map]
      cases levels[depth]? <;> rfl
    · rfl

/-- Showing or hiding a level lists no member and stores none. -/
theorem views_setLevelVisible {o o' : Outline} {hierarchy level : String} {visible : Bool}
    (h : o.setLevelVisible hierarchy level visible = .ok o') :
    o'.members = o.members ∧ ∀ n d, o'.names n d = o.names n d := by
  obtain ⟨t, -, h⟩ := bind_eq_ok h
  split at h
  · obtain rfl := Except.ok.inj h
    refine ⟨rfl, fun n d => ?_⟩
    rw [names, names, table?, table?, hierarchy?_changeLevels]
    cases o.hierarchy? n with
    | none => rfl
    | some t' =>
      by_cases hn : n = hierarchy
      · simp only [Option.map_some, hn, if_true, Option.bind_some, ← List.getElem?_map]
        rw [map_changeFirst]
        exact fun _ => rfl
      · simp only [Option.map_some, hn, if_false]
  · nomatch h

/-- Listing one more name at a depth where there is a table is seen there only. -/
theorem names_changeLevels_append {o : Outline} {hierarchy : String} {depth : Nat} {t : LevelTable}
    (ht : o.table? hierarchy depth = some t) (u : String) (n : String) (d : Nat) :
    (o.changeLevels hierarchy (·.modify depth fun l => { l with members := l.members ++ [u] })).names n d =
      if n = hierarchy ∧ d = depth then o.names n d ++ [u] else o.names n d := by
  obtain ⟨h, hh, htable⟩ := Option.bind_eq_some_iff.1 ht
  rw [names, table?, hierarchy?_changeLevels]
  by_cases hn : n = hierarchy
  · subst hn
    rw [hh]
    simp only [Option.map_some, if_true, Option.bind_some, true_and, List.getElem?_modify]
    by_cases hd : d = depth
    · subst hd
      rw [htable, if_pos rfl, names_of_table? ht]
      simp
    · rw [if_neg hd, names, table?, hh, Option.bind_some]
      simp [Ne.symm hd]
  · simp only [hn, if_false, false_and, Option.map_id']
    rfl

/-- Storing a member is seen under its unique name only. -/
theorem member?_insert (o : Outline) (u : String) (m : Member) (hs : List HierarchyTable) (v : String) :
    (Outline.mk hs (o.members.insert u m)).member? v = if u = v then some m else o.member? v := by
  rw [member?, member?, Std.TreeMap.getElem?_insert]
  by_cases h : u = v
  · rw [if_pos (Std.LawfulEqCmp.compare_eq_iff_eq.2 h), if_pos h]
  · rw [if_neg fun hc => h (Std.LawfulEqCmp.compare_eq_iff_eq.1 hc), if_neg h]

/-- Storing a member makes one member more, unless the name is taken. -/
theorem size_insert (o : Outline) (u : String) (m : Member) :
    (o.members.insert u m).size = if o.member? u = none then o.members.size + 1 else o.members.size := by
  rw [Std.TreeMap.size_insert, Std.TreeMap.contains_eq_isSome_getElem?, member?]
  cases o.members[u]? <;> rfl

/-- The text of a path that goes one name further. -/
theorem text_snoc {segments : List String} (h : segments ≠ []) (name : String) :
    MemberPath.text ⟨segments ++ [name]⟩ = MemberPath.text ⟨segments⟩ ++ "." ++ bracketed name := by
  rw [MemberPath.text, List.map_append, List.map_singleton,
    String.intercalate_append_of_ne_nil (by simpa using h) (List.cons_ne_nil _ _), String.intercalate_singleton]
  rfl

/-- An outline goes over into another by a member that is stored under its unique name, in place of the one stored there before, and
whose name is listed last at its depth. -/
structure Stores (o : Outline) (m : Member) (o' : Outline) : Prop where
  member : ∀ v, o'.member? v = if m.uniqueName = v then some m else o.member? v
  size : o'.members.size = if o.member? m.uniqueName = none then o.members.size + 1 else o.members.size
  names : ∀ n d, o'.names n d = if n = m.hierarchy ∧ d = m.depth then o.names n d ++ [m.uniqueName] else o.names n d
  ordinal : m.ordinal = (o.names m.hierarchy m.depth).length

/-- An outline goes over into another by a member of a new name: it is stored, and its name is listed last at its depth. -/
structure Adds (o : Outline) (m : Member) (o' : Outline) : Prop where
  new : o.member? m.uniqueName = none
  member : ∀ v, o'.member? v = if m.uniqueName = v then some m else o.member? v
  size : o'.members.size = o.members.size + 1
  names : ∀ n d, o'.names n d = if n = m.hierarchy ∧ d = m.depth then o.names n d ++ [m.uniqueName] else o.names n d
  ordinal : m.ordinal = (o.names m.hierarchy m.depth).length

/-- To store a member under a new name is to add it. -/
theorem Stores.adds {o o' : Outline} {m : Member} (h : o.Stores m o') (hnew : o.member? m.uniqueName = none) : o.Adds m o' :=
  ⟨hnew, h.member, h.size.trans (if_pos hnew), h.names, h.ordinal⟩

/-- To add a member is to store it. -/
theorem Adds.stores {o o' : Outline} {m : Member} (h : o.Adds m o') : o.Stores m o' :=
  ⟨h.member, h.size.trans (if_pos h.new).symm, h.names, h.ordinal⟩

/-- Where a member to be added stands: at the top, or one level below a stored parent whose name starts its own. -/
def Placed (o : Outline) (m : Member) : Prop :=
  (m.parent = none ∧ m.depth = 0 ∧ m.uniqueName = MemberPath.text ⟨[m.hierarchy, m.name]⟩) ∨
    ∃ p pm, m.parent = some p ∧ o.member? p = some pm ∧ m.depth = pm.depth + 1 ∧ m.uniqueName = p ++ "." ++ bracketed m.name

/-- Adding a member stores one that is placed. -/
theorem exists_stores {o o' : Outline} {hierarchy name u : String} {parent : Option String}
    (h : o.addMember hierarchy parent name = .ok (o', u)) :
    ∃ m, o.Stores m o' ∧ o.Placed m ∧ m.uniqueName = u ∧ m.hierarchy = hierarchy ∧ m.parent = parent := by
  obtain ⟨⟨depth, v⟩, hp, h⟩ := bind_eq_ok h
  obtain ⟨t, ht, h⟩ := bind_eq_ok h
  have hh := hierarchy?_of_hierarchy ht
  simp only at h
  split at h
  · nomatch h
  · next table htable =>
    have hrow : o.table? hierarchy depth = some table := by rw [table?, hh]; exact htable
    obtain ⟨ho, rfl⟩ := Prod.mk.inj (Except.ok.inj h)
    refine ⟨{ uniqueName := v, name, hierarchy, depth, ordinal := table.members.length, parent },
      ⟨fun w => ?_, ?_, fun n d => ?_, ?_⟩, ?_, rfl, rfl, rfl⟩
    · rw [← ho]
      exact member?_insert o v _ _ w
    · rw [← ho]
      exact size_insert o v _
    · rw [← ho]
      exact names_changeLevels_append hrow v n d
    · rw [names_of_table? hrow]
    · cases parent with
      | none =>
        obtain ⟨rfl, rfl⟩ := Prod.mk.inj (Except.ok.inj hp)
        exact Or.inl ⟨rfl, rfl, rfl⟩
      | some p =>
        rw [place] at hp
        cases hpm : o.member? p with
        | none =>
          rw [hpm] at hp
          nomatch hp
        | some pm =>
          rw [hpm] at hp
          obtain ⟨rfl, rfl⟩ := Prod.mk.inj (Except.ok.inj hp)
          exact Or.inr ⟨p, pm, rfl, hpm, rfl, rfl⟩

/-- Under a new name it adds one. -/
theorem exists_adds {o o' : Outline} {hierarchy name u : String} {parent : Option String}
    (h : o.addMember hierarchy parent name = .ok (o', u)) (hu : o.member? u = none) :
    ∃ m, o.Adds m o' ∧ o.Placed m ∧ m.uniqueName = u ∧ m.hierarchy = hierarchy ∧ m.parent = parent := by
  obtain ⟨m, hstores, hplaced, rfl, hrest⟩ := exists_stores h
  exact ⟨m, hstores.adds hu, hplaced, rfl, hrest⟩

/-! ## Building in good order -/

/-- The outlines that edits in good order build. An edit that fails leaves no outline, so it needs no rule. -/
inductive Orderly : Outline → Prop
  | empty : Orderly {}
  | addHierarchy {o : Outline} {name : String} (levels : List String) :
      Orderly o → o.hierarchy? name = none → Orderly (o.addHierarchy name levels)
  | setLevelVisible {o o' : Outline} {hierarchy level : String} {visible : Bool} :
      Orderly o → o.setLevelVisible hierarchy level visible = .ok o' → Orderly o'
  | addMember {o o' : Outline} {hierarchy name u : String} {parent : Option String} :
      Orderly o → o.addMember hierarchy parent name = .ok (o', u) → o.member? u = none →
      (∀ p m, parent = some p → o.member? p = some m → m.hierarchy = hierarchy) → Orderly o'

/-- The two tables agree, and they hold trees: a name is listed once, where the member stored under it says, and a member that is
not at the top has its parent stored one level above. No member is deeper than there are others. -/
structure Consistent (o : Outline) : Prop where
  listed : ∀ hierarchy depth i u, (o.names hierarchy depth)[i]? = some u →
    ∃ m, o.Holds m ∧ m.uniqueName = u ∧ m.hierarchy = hierarchy ∧ m.depth = depth ∧ m.ordinal = i
  stored : ∀ u m, o.member? u = some m → m.uniqueName = u ∧ (o.names m.hierarchy m.depth)[m.ordinal]? = some u
  top : ∀ m, o.Holds m → m.parent = none → m.depth = 0
  above : ∀ m p, o.Holds m → m.parent = some p →
    ∃ pm, o.Holds pm ∧ pm.uniqueName = p ∧ pm.hierarchy = m.hierarchy ∧ m.depth = pm.depth + 1
  height : ∀ m, o.Holds m → m.depth < o.members.size
  path : ∀ m, o.Holds m → ∃ p : MemberPath, p.segments ≠ [] ∧ p.text = m.uniqueName

/-- The empty outline is consistent: it lists and stores nothing. -/
theorem Consistent.empty : Consistent {} where
  listed := by
    intro _ _ _ _ h
    simp [names, table?, hierarchy?] at h
  stored := by
    intro _ _ h
    simp [member?] at h
  top := by
    intro _ h
    simp [Holds, member?] at h
  above := by
    intro _ _ h
    simp [Holds, member?] at h
  height := by
    intro _ h
    simp [Holds, member?] at h
  path := by
    intro _ h
    simp [Holds, member?] at h

/-- Consistency can be read off the two views. -/
theorem Consistent.congr {o o' : Outline} (hm : o'.members = o.members) (hn : ∀ n d, o'.names n d = o.names n d)
    (h : Consistent o) : Consistent o' := by
  have hq : ∀ u, o'.member? u = o.member? u := fun u => by rw [member?, member?, hm]
  have hH : ∀ m, o'.Holds m ↔ o.Holds m := fun m => by rw [Holds, Holds, hq]
  refine ⟨?_, ?_, ?_, ?_, ?_, ?_⟩
  · intro n d i u hu
    rw [hn] at hu
    obtain ⟨m, hm, hrest⟩ := h.listed n d i u hu
    exact ⟨m, (hH m).2 hm, hrest⟩
  · intro u m hu
    rw [hn]
    exact h.stored u m (hq u ▸ hu)
  · exact fun m hm => h.top m ((hH m).1 hm)
  · intro m p hm hp
    obtain ⟨pm, hpm, hrest⟩ := h.above m p ((hH m).1 hm) hp
    exact ⟨pm, (hH pm).2 hpm, hrest⟩
  · rw [hm]
    exact fun m hm => h.height m ((hH m).1 hm)
  · exact fun m hm => h.path m ((hH m).1 hm)

/-- The stored member is held. -/
theorem Stores.holds_new {o o' : Outline} {m : Member} (h : o.Stores m o') : o'.Holds m := by
  rw [Holds, h.member, if_pos rfl]

/-- What was held under another name is held still. -/
theorem Stores.holds_of {o o' : Outline} {m n : Member} (h : o.Stores m o') (hn : o.Holds n) (hne : n.uniqueName ≠ m.uniqueName) :
    o'.Holds n := by
  rw [Holds, h.member, if_neg hne.symm]
  exact hn

/-- What is held is the stored member or was held under another name before. -/
theorem Stores.eq_or_holds {o o' : Outline} {m n : Member} (h : o.Stores m o') (hn : o'.Holds n) :
    n = m ∨ (o.Holds n ∧ n.uniqueName ≠ m.uniqueName) := by
  rw [Holds, h.member] at hn
  split at hn
  · exact Or.inl (Option.some.inj hn).symm
  · next hne => exact Or.inr ⟨hn, Ne.symm hne⟩

/-- What was held is held still. -/
theorem Adds.holds_of {o o' : Outline} {m n : Member} (h : o.Adds m o') (hn : o.Holds n) : o'.Holds n := by
  refine h.stores.holds_of hn fun e => ?_
  have hnew := h.new
  rw [← e, hn] at hnew
  nomatch hnew

/-- What is held is the added member or was held before. -/
theorem Adds.eq_or_holds {o o' : Outline} {m n : Member} (h : o.Adds m o') (hn : o'.Holds n) : n = m ∨ o.Holds n :=
  (h.stores.eq_or_holds hn).imp_right And.left

/-- What is listed is the stored member's name, in its place, or was listed before. -/
theorem Stores.listed_cases {o o' : Outline} {m : Member} (h : o.Stores m o') {n : String} {d i : Nat} {u : String}
    (hu : (o'.names n d)[i]? = some u) :
    (n = m.hierarchy ∧ d = m.depth ∧ i = m.ordinal ∧ u = m.uniqueName) ∨ (o.names n d)[i]? = some u := by
  rw [h.names] at hu
  split at hu
  · next hnd =>
    obtain ⟨rfl, rfl⟩ := hnd
    rw [List.getElem?_append] at hu
    split at hu
    · exact Or.inr hu
    · next hi =>
      have hi' : i - (o.names m.hierarchy m.depth).length = 0 := by
        have := (List.getElem?_eq_some_iff.1 hu).1
        rw [List.length_singleton] at this
        omega
      rw [hi'] at hu
      refine Or.inl ⟨rfl, rfl, ?_, (Option.some.inj hu).symm⟩
      rw [h.ordinal]
      omega
  · exact Or.inr hu

/-- What was listed is listed still, in its place. -/
theorem Stores.listed_of {o o' : Outline} {m : Member} (h : o.Stores m o') {n : String} {d i : Nat} {u : String}
    (hu : (o.names n d)[i]? = some u) : (o'.names n d)[i]? = some u := by
  rw [h.names]
  split
  · rw [List.getElem?_append_left (List.getElem?_eq_some_iff.1 hu).1]
    exact hu
  · exact hu

/-- Adding a member under a new name, below a parent of its hierarchy, keeps the tables consistent. -/
theorem Consistent.adds {o o' : Outline} {m : Member} (hc : Consistent o) (h : o.Adds m o') (hm : o.Placed m)
    (hp : ∀ p pm, m.parent = some p → o.member? p = some pm → pm.hierarchy = m.hierarchy) : Consistent o' := by
  refine ⟨?_, ?_, ?_, ?_, ?_, ?_⟩
  · intro n d i u hu
    rcases h.stores.listed_cases hu with ⟨rfl, rfl, rfl, rfl⟩ | hu
    · exact ⟨m, h.stores.holds_new, rfl, rfl, rfl, rfl⟩
    · obtain ⟨n', hn', hrest⟩ := hc.listed n d i u hu
      exact ⟨n', h.holds_of hn', hrest⟩
  · intro u n hn
    rw [h.member] at hn
    split at hn
    · next hu =>
      obtain rfl := Option.some.inj hn
      refine ⟨hu, ?_⟩
      rw [h.names, if_pos ⟨rfl, rfl⟩, h.ordinal, List.getElem?_concat_length, hu]
    · obtain ⟨hu, hl⟩ := hc.stored u n hn
      exact ⟨hu, h.stores.listed_of hl⟩
  · intro n hn htop
    rcases h.eq_or_holds hn with rfl | hn
    · rcases hm with ⟨-, hd, -⟩ | ⟨p, pm, hpar, -⟩
      · exact hd
      · rw [htop] at hpar
        nomatch hpar
    · exact hc.top n hn htop
  · intro n p hn hpar
    rcases h.eq_or_holds hn with rfl | hn
    · rcases hm with ⟨htop, -⟩ | ⟨q, pm, hq, hpm, hd, -⟩
      · rw [htop] at hpar
        nomatch hpar
      · obtain rfl : q = p := Option.some.inj (hq.symm.trans hpar)
        have hname := (hc.stored q pm hpm).1
        exact ⟨pm, h.holds_of (by rw [Holds, hname]; exact hpm), hname, hp q pm hq hpm, hd⟩
    · obtain ⟨pm, hpm, hrest⟩ := hc.above n p hn hpar
      exact ⟨pm, h.holds_of hpm, hrest⟩
  · intro n hn
    rw [h.size]
    rcases h.eq_or_holds hn with rfl | hn
    · rcases hm with ⟨-, hd, -⟩ | ⟨q, pm, -, hpm, hd, -⟩
      · omega
      · have := hc.height pm (by rw [Holds, (hc.stored q pm hpm).1]; exact hpm)
        omega
    · exact Nat.lt_succ_of_lt (hc.height n hn)
  · intro n hn
    rcases h.eq_or_holds hn with rfl | hn
    · rcases hm with ⟨-, -, hu⟩ | ⟨q, pm, -, hpm, -, hu⟩
      · exact ⟨_, List.cons_ne_nil _ _, hu.symm⟩
      · have hname := (hc.stored q pm hpm).1
        obtain ⟨⟨segments⟩, hne, ht⟩ := hc.path pm (by rw [Holds, hname]; exact hpm)
        refine ⟨⟨segments ++ [n.name]⟩, by simp, ?_⟩
        rw [text_snoc hne, ht, hname, hu]
    · exact hc.path n hn

/-- An orderly outline is consistent. -/
theorem Orderly.consistent {o : Outline} (h : Orderly o) : Consistent o := by
  induction h with
  | empty => exact Consistent.empty
  | @addHierarchy o name levels _ _ ih =>
    have hm : (o.addHierarchy name levels).members = o.members := rfl
    exact ih.congr hm (o.names_addHierarchy name levels)
  | setLevelVisible _ hs ih => exact ih.congr (views_setLevelVisible hs).1 (views_setLevelVisible hs).2
  | addMember _ ha hu hp ih =>
    obtain ⟨m, hadds, hplaced, -, rfl, rfl⟩ := exists_adds ha hu
    exact ih.adds hadds hplaced hp

/-! ## Building an outline from lists -/

/-- Adds members one after the other, each given by its hierarchy, its parent and its name, so long as this is in good order. -/
def addMembers? (o : Outline) : List (String × Option String × String) → Option Outline
  | [] => some o
  | (hierarchy, parent, name) :: ms =>
    match o.addMember hierarchy parent name with
    | .error _ => none
    | .ok (o', u) =>
      if o.member? u = none ∧ (parent.bind o.member?).all (fun p => decide (p.hierarchy = hierarchy)) then o'.addMembers? ms else none

/-- An outline to which members were added in good order is orderly. -/
theorem Orderly.addMembers? {o o' : Outline} {ms : List (String × Option String × String)} (ho : Orderly o)
    (h : o.addMembers? ms = some o') : Orderly o' := by
  induction ms generalizing o with
  | nil =>
    obtain rfl := Option.some.inj h
    exact ho
  | cons m ms ih =>
    obtain ⟨hierarchy, parent, name⟩ := m
    rw [Outline.addMembers?] at h
    split at h
    · nomatch h
    · next o'' u ha =>
      split at h
      · next hok =>
        obtain ⟨hnew, hparent⟩ := hok
        refine ih (ho.addMember ha hnew ?_) h
        rintro p m rfl hm
        rw [Option.bind_some, hm] at hparent
        simpa using hparent
      · nomatch h

/-- A small cube: products in families and departments under one member, and genders under one. -/
def sample? : Option Outline :=
  (({} : Outline).addHierarchy "Product" ["(All)", "Family", "Department"]).addHierarchy "Gender" ["(All)", "Gender"] |>.addMembers?
    [("Product", none, "All"), ("Product", some "[Product].[All]", "Drink"), ("Product", some "[Product].[All]", "Food [new]"),
      ("Product", some "[Product].[All].[Drink]", "Dairy"), ("Product", some "[Product].[All].[Drink]", "Beverages"),
      ("Product", some "[Product].[All].[Food [new]]]", "Snacks"), ("Gender", none, "All"), ("Gender", some "[Gender].[All]", "F"),
      ("Gender", some "[Gender].[All]", "M")]

/-- The small cube. -/
def sample : Outline := sample?.getD {}

/-- A family of the small cube. -/
def sampleFamily : Member := ⟨"[Product].[All].[Drink]", "Drink", "Product", 1, 0, some "[Product].[All]"⟩

/-- Levels of the small cube that are not next to one another, one of them asked for twice. -/
def sampleLevels : List Level :=
  [⟨"Product", "Department", 2⟩, ⟨"Gender", "Gender", 1⟩, ⟨"Product", "(All)", 0⟩, ⟨"Product", "Department", 2⟩]

/-- The small cube is orderly. -/
theorem orderly_sample : Orderly sample := by
  have hsome : sample?.isSome = true := by decide +kernel
  obtain ⟨o, ho⟩ := Option.isSome_iff_exists.1 hsome
  have hbase : Orderly ((({} : Outline).addHierarchy "Product" ["(All)", "Family", "Department"]).addHierarchy "Gender"
      ["(All)", "Gender"]) := (Orderly.empty.addHierarchy _ rfl).addHierarchy _ rfl
  rw [sample, ho]
  exact hbase.addMembers? ho

end Outline

end CubeAxes
