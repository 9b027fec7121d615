import CubeAxes.MemberPath

/-!
# Catalogs: what can be asked about a cube

A cube has hierarchies, a hierarchy has levels by depth, and a level has members in the order in which the cube enumerates them.
All that the rest of the library knows about a cube it asks a `Catalog`: four questions, three of which can fail, because a
catalog may sit behind a connection. `Catalog.interrupted` is a catalog some of whose questions fail; whatever it does answer,
the catalog behind it answers too.
-/

namespace CubeAxes

/-- One depth of a hierarchy. -/
structure Level where
  hierarchy : String
  name : String
  depth : Nat
  deriving DecidableEq, Repr

/-- The unique name of a level. -/
def Level.uniqueName (l : Level) : String := MemberPath.text ⟨[l.hierarchy, l.name]⟩

/-- A member of a level. It is known by its unique name, which is the text of its path; its parent is given by unique name. -/
structure Member where
  uniqueName : String
  name : String
  hierarchy : String
  depth : Nat
  ordinal : Nat
  parent : Option String
  deriving DecidableEq, Repr

/-- Why a catalog gives no answer. -/
inductive CatalogError where
  | unavailable (reason : String)
  | unknownHierarchy (name : String)
  | unknownLevel (name : String)
  deriving DecidableEq, Repr

/-- The words for a catalog's error. -/
def CatalogError.message : CatalogError → String
  | .unavailable reason => "Catalog unavailable: " ++ reason
  | .unknownHierarchy name => "Unknown hierarchy: " ++ name
  | .unknownLevel name => "Unknown level: " ++ name

/-- What can be asked about a cube: the levels of a hierarchy by depth, the members of a level in their order (only the
descendants of an ancestor, if one is given), whether a level is shown, and the member of a name. No chain of parents in the
cube is longer than `height`. -/
structure Catalog where
  levelsOf : String → Except CatalogError (List Level)
  membersOf : Level → Option Member → Except CatalogError (List Member)
  isVisible : Level → Bool
  member : String → Except CatalogError (Option Member)
  height : Nat

/-- A question that can fail. -/
inductive CatalogCall where
  | levelsOf (hierarchy : String)
  | membersOf (level : Level) (ancestor : Option Member)
  | member (name : String)
  deriving DecidableEq, Repr

namespace Catalog

/-- The catalog in which the calls that `down` gives a reason for are unavailable for that reason. -/
def interrupted (cat : Catalog) (down : CatalogCall → Option String) : Catalog where
  levelsOf hierarchy :=
    match down (.levelsOf hierarchy) with
    | some reason => .error (.unavailable reason)
    | none => cat.levelsOf hierarchy
  membersOf level ancestor :=
    match down (.membersOf level ancestor) with
    | some reason => .error (.unavailable reason)
    | none => cat.membersOf level ancestor
  isVisible := cat.isVisible
  member name :=
    match down (.member name) with
    | some reason => .error (.unavailable reason)
    | none => cat.member name
  height := cat.height

/-- The error for a level that a hierarchy does not have. The names are put in brackets as they are. -/
def noLevel (hierarchy name : String) : CatalogError :=
  .unknownLevel ("[" ++ hierarchy ++ "].[" ++ name ++ "]")

/-- The first level of a name in a hierarchy. -/
def level (cat : Catalog) (hierarchy name : String) : Except CatalogError Level := do
  match (← cat.levelsOf hierarchy).find? fun l => decide (l.name = name) with
  | some l => return l
  | none => throw (noLevel hierarchy name)

end Catalog

end CubeAxes
