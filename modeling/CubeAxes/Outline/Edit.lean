import CubeAxes.Outline

/-!
# Editing an outline in place

An outline is edited by steps that change it where it stands: what a step has changed stays changed when a later one fails. An edit
declares a hierarchy, adds a member, or shows or hides a level. Edits follow one another whether those before them failed or not.
-/

namespace CubeAxes

/-- Steps taken on an outline in place. When one fails the outline is left as the steps before it made it. -/
abbrev InPlace (α : Type) : Type := ExceptT CatalogError (StateM Outline) α

/-- An edit of an outline. -/
inductive OutlineEdit where
  | addHierarchy (name : String) (levels : List String)
  | addMember (hierarchy : String) (parent : Option String) (name : String)
  | setLevelVisible (hierarchy level : String) (visible : Bool)
  deriving DecidableEq, Repr

namespace Outline

/-- Asks the outline as it stands. -/
def ask {α : Type} (question : Outline → Except CatalogError α) : InPlace α := fun o => (question o, o)

/-- Adds a member in place and says which unique name it got: once its depth has a table, the name is listed there and the member is
stored. -/
def addMemberInPlace (hierarchy : String) (parent : Option String) (name : String) : InPlace String := do
  let (depth, uniqueName) ← ask (·.place hierarchy parent name)
  let h ← ask (·.hierarchy hierarchy)
  match h.levels[depth]? with
  | none => throw (.unknownLevel ("[" ++ hierarchy ++ "] has no level at depth " ++ Nat.repr depth))
  | some table =>
    modify (·.changeLevels hierarchy (·.modify depth fun l => { l with members := l.members ++ [uniqueName] }))
    let m : Member := { uniqueName, name, hierarchy, depth, ordinal := table.members.length, parent }
    modify fun o => { o with members := o.members.insert uniqueName m }
    return uniqueName

/-- Shows or hides a level in place. -/
def setLevelVisibleInPlace (hierarchy level : String) (visible : Bool) : InPlace Unit := do
  set (← ask (·.setLevelVisible hierarchy level visible))

/-- The outline after an edit, whether it succeeds or fails. -/
def edit (o : Outline) : OutlineEdit → Outline
  | .addHierarchy name levels => o.addHierarchy name levels
  | .addMember hierarchy parent name => ((addMemberInPlace hierarchy parent name).run.run o).2
  | .setLevelVisible hierarchy level visible => ((setLevelVisibleInPlace hierarchy level visible).run.run o).2

/-- The outline after edits made one after the other. -/
def editAll (o : Outline) (es : List OutlineEdit) : Outline := es.foldl edit o

/-- After a question the steps go on with the answer, or end with the error. -/
theorem run_ask_bind {α β : Type} (question : Outline → Except CatalogError α) (next : α → InPlace β) (o : Outline) :
    (ask question >>= next).run.run o =
      match question o with
      | .ok a => (next a).run.run o
      | .error e => (.error e, o) := by
  change ExceptT.bindCont next (question o) o = _
  cases question o <;> rfl

/-- Adding a member in place comes to what adding it comes to, and leaves the outline as it was where that fails. -/
theorem run_addMemberInPlace (o : Outline) (hierarchy : String) (parent : Option String) (name : String) :
    (addMemberInPlace hierarchy parent name).run.run o =
      match o.addMember hierarchy parent name with
      | .ok (o', u) => (.ok u, o')
      | .error e => (.error e, o) := by
  rw [addMemberInPlace, run_ask_bind, addMember]
  cases o.place hierarchy parent name with
  | error e => rfl
  | ok placed =>
    simp only [run_ask_bind]
    cases o.hierarchy hierarchy with
    | error e => rfl
    | ok h =>
      simp only [bind, Except.bind]
      cases h.levels[placed.1]? <;> rfl

/-- Showing or hiding a level in place comes to what showing or hiding it comes to, and leaves the outline as it was where that
fails. -/
theorem run_setLevelVisibleInPlace (o : Outline) (hierarchy level : String) (visible : Bool) :
    (setLevelVisibleInPlace hierarchy level visible).run.run o =
      match o.setLevelVisible hierarchy level visible with
      | .ok o' => (.ok (), o')
      | .error e => (.error e, o) := by
  rw [setLevelVisibleInPlace, run_ask_bind]
  cases o.setLevelVisible hierarchy level visible <;> rfl

end Outline

end CubeAxes
