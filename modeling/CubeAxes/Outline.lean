import Std.Data.TreeMap
import CubeAxes.Catalog
import CubeAxes.Grammar.Sets

/-!
# Outlines: a cube's hierarchies, levels and members, held as tables

An outline is edited by declaring hierarchies and adding members, parents first; it answers every question of a `Catalog`. Where
a hierarchy is declared twice the first declaration counts. A member is known by its unique name: adding one under a name that is
taken lists the name once more and replaces the member.

A query need not write the member at the top of a hierarchy when there is only one: the path without it is a short name, and is
tried when no member has the name as it stands.
-/

namespace CubeAxes

/-- A level of an outline: whether it is shown, and the unique names of its members in the order in which they were added. -/
structure LevelTable where
  name : String
  visible : Bool := true
  members : List String := []
  deriving DecidableEq, Repr

/-- A hierarchy of an outline, its levels from the top. -/
structure HierarchyTable where
  name : String
  levels : List LevelTable
  deriving DecidableEq, Repr

/-- A cube's hierarchies in the order of their declaration, and its members by unique name. -/
structure Outline where
  hierarchies : List HierarchyTable := []
  members : Std.TreeMap String Member := {}

namespace Outline

/-! ## Looking things up -/

/-- The hierarchy of a name. -/
def hierarchy? (o : Outline) (name : String) : Option HierarchyTable :=
  o.hierarchies.find? fun h => decide (h.name = name)

/-- The member of a unique name: the latest one added under it. -/
def member? (o : Outline) (uniqueName : String) : Option Member := o.members[uniqueName]?

/-- The hierarchy of a name, which must be declared. -/
def hierarchy (o : Outline) (name : String) : Except CatalogError HierarchyTable :=
  match o.hierarchy? name with
  | some h => .ok h
  | none => .error (.unknownHierarchy name)

/-- Whether a chain of parents reaches a name: the parent `link`, the parent of that, and so on for so many steps. -/
def reaches (o : Outline) (ancestor : String) : Nat → Option String → Bool
  | _, none => false
  | 0, some link => link == ancestor
  | n + 1, some link => link == ancestor || o.reaches ancestor n ((o.member? link).bind (·.parent))

/-- Whether a member lies below a name: some parent of it has the name. No chain of parents is longer than there are members. -/
def isBelow (o : Outline) (m : Member) (ancestor : String) : Bool := o.reaches ancestor o.members.size m.parent

/-- The only member at the top of a hierarchy, if there is only one. -/
def top? (o : Outline) (hierarchy : String) : Option Member :=
  match (o.hierarchy? hierarchy).bind (·.levels.head?) with
  | some ⟨_, _, [name]⟩ => o.member? name
  | _ => none

/-- The full name that a short one stands for: the path with the only member at the top put after the hierarchy. A path that has
that member's name there already is not short. -/
def fullName? (o : Outline) (short : String) : Option String :=
  match SetExpr.ofText short with
  | .ok (.reference (.member ⟨hierarchy :: below⟩)) =>
    match o.top? hierarchy with
    | some top =>
      if below.head? = some top.name then none
      else some (MemberPath.text ⟨hierarchy :: top.name :: below⟩)
    | none => none
  | _ => none

/-- The member that a name refers to: the one of that unique name, or else the one whose short name it is. -/
def find? (o : Outline) (name : String) : Option Member :=
  match o.member? name with
  | some m => some m
  | none => (o.fullName? name).bind o.member?

/-- The levels of a hierarchy from the top, the first at depth `depth`. -/
def levelsFrom (hierarchy : String) (depth : Nat) : List LevelTable → List Level
  | [] => []
  | l :: ls => ⟨hierarchy, l.name, depth⟩ :: levelsFrom hierarchy (depth + 1) ls

/-- The levels of a hierarchy. -/
def levelsOf (o : Outline) (hierarchy : String) : Except CatalogError (List Level) := do
  let h ← o.hierarchy hierarchy
  return levelsFrom h.name 0 h.levels

/-- The members of a level, found by its hierarchy and its depth. -/
def membersOf (o : Outline) (level : Level) (ancestor : Option Member) : Except CatalogError (List Member) := do
  let h ← o.hierarchy level.hierarchy
  match h.levels[level.depth]? with
  | none => throw (.unknownLevel level.uniqueName)
  | some table =>
    let members := table.members.filterMap o.member?
    match ancestor with
    | none => return members
    | some a => return members.filter (o.isBelow · a.uniqueName)

/-- Whether a level is shown; one that is not there is not. -/
def isVisible (o : Outline) (level : Level) : Bool :=
  match (o.hierarchy? level.hierarchy).bind (·.levels[level.depth]?) with
  | some table => table.visible
  | none => false

/-- The catalog that an outline is. A chain of parents can start outside the outline, and then runs through its members. -/
def catalog (o : Outline) : Catalog where
  levelsOf := o.levelsOf
  membersOf := o.membersOf
  isVisible := o.isVisible
  member name := .ok (o.find? name)
  height := o.members.size + 1

/-! ## Editing -/

/-- Changes the first entry that a test accepts, to what `change` makes of it. -/
def changeFirst {α : Type} (test : α → Bool) (change : α → α) : List α → List α
  | [] => []
  | a :: as => if test a then change a :: as else a :: changeFirst test change as

/-- Changes the levels of a hierarchy. -/
def changeLevels (o : Outline) (hierarchy : String) (change : List LevelTable → List LevelTable) : Outline :=
  { o with
    hierarchies := changeFirst (fun h => decide (h.name = hierarchy)) (fun h => { h with levels := change h.levels })
      o.hierarchies }

/-- Declares a hierarchy and its levels, from the top. -/
def addHierarchy (o : Outline) (name : String) (levels : List String) : Outline :=
  { o with hierarchies := o.hierarchies ++ [⟨name, levels.map fun l => ⟨l, true, []⟩⟩] }

/-- Shows or hides the first level of a name in a hierarchy. -/
def setLevelVisible (o : Outline) (hierarchy level : String) (visible : Bool) : Except CatalogError Outline := do
  let h ← o.hierarchy hierarchy
  if h.levels.any fun l => decide (l.name = level) then
    return o.changeLevels hierarchy
      (changeFirst (fun l => decide (l.name = level)) ({ · with visible }))
  else
    throw (Catalog.noLevel hierarchy level)

/-- The depth and the unique name of a member to be added: a parent, which must be there, is one level above it, and its unique
name starts the member's. -/
def place (o : Outline) (hierarchy : String) (parent : Option String) (name : String) :
    Except CatalogError (Nat × String) :=
  match parent with
  | none => .ok (0, MemberPath.text ⟨[hierarchy, name]⟩)
  | some parent =>
    match o.member? parent with
    | none => .error (.unknownLevel ("parent " ++ parent ++ " is not in the catalog"))
    | some p => .ok (p.depth + 1, parent ++ "." ++ bracketed name)

/-- Adds a member under a parent, or at the top, and says which unique name it got. -/
def addMember (o : Outline) (hierarchy : String) (parent : Option String) (name : String) :
    Except CatalogError (Outline × String) := do
  let (depth, uniqueName) ← o.place hierarchy parent name
  let h ← o.hierarchy hierarchy
  match h.levels[depth]? with
  | none => throw (.unknownLevel ("[" ++ hierarchy ++ "] has no level at depth " ++ Nat.repr depth))
  | some table =>
    let listed := o.changeLevels hierarchy (·.modify depth fun l => { l with members := l.members ++ [uniqueName] })
    let m : Member := { uniqueName, name, hierarchy, depth, ordinal := table.members.length, parent }
    return ({ listed with members := o.members.insert uniqueName m }, uniqueName)

end Outline

end CubeAxes
