import CubeAxes.Drill
import CubeAxes.LogLine
import CubeAxes.Options
import CubeAxes.SortKeys
import CubeAxes.Visibility

/-!
# Placement: adding, removing and placing levels on an axis

A mutation reads what the axis selects, hierarchy by hierarchy, and edits that; the axis is then built anew from the edited
selections, as a join of one set of members for each hierarchy, parents before children. The shape that the axis had plays no
part. Adding a level drills the selection of its hierarchy, or brings in a hierarchy that is not there; removing one rolls its
members up to the next level above when it is the deepest; placing levels starts from nothing.
-/

namespace CubeAxes

/-- What can be done with the levels of an axis. A position counts the hierarchies before it; a negative one is the end. -/
inductive Mutation where
  | add (level : Level) (position : Int)
  | remove (level : Level)
  | place (levels : List Level)
  deriving DecidableEq, Repr

/-- What a mutation makes of the selections of an axis, and what it reports. -/
structure Edit where
  selections : List Selection
  notes : List String := []
  deriving DecidableEq, Repr

namespace Edit

/-- The report that a hierarchy was drilled. -/
def drilledNote (level : Level) (count : Nat) : String :=
  "drilling " ++ level.hierarchy ++ " to " ++ level.name ++ ": " ++ Nat.repr count ++ " new members"

/-- The report that a hierarchy was brought in. -/
def insertedNote (level : Level) (index count : Nat) : String :=
  "inserting " ++ level.hierarchy ++ " at operand " ++ Nat.repr index ++ " with " ++ Nat.repr count ++ " members"

/-- The report that members were removed. -/
def removedNote (level : Level) (removed kept : Nat) : String :=
  "removed " ++ Nat.repr removed ++ " members of " ++ level.uniqueName ++ ", " ++ Nat.repr kept ++ " remain"

/-- Adds a level: to the selection of its hierarchy, if there is one, or as a selection of its own at the position. -/
def adding (cat : Catalog) (axis : Axis) (level : Level) (position : Int) : Except AxisError Edit := do
  let selections := axis.selections
  if (selections.length : Int) < position then
    throw (.invalidPosition position selections.length)
  else if level.hierarchy ∈ axis.hierarchies then
    let drilled ← cat.expand (axis.membersOf level.hierarchy) level
    return {
      selections := selections.map fun s =>
        if s.hierarchy = level.hierarchy then { s with members := s.members ++ drilled } else s
      notes := [drilledNote level drilled.length] }
  else
    let ms ← asked (cat.membersOf level none)
    let index := if position < 0 then selections.length else position.toNat
    return {
      selections := selections.insertIdx index ⟨level.hierarchy, ms⟩
      notes := [insertedNote level index ms.length] }

/-- The greatest depth below a bound among ascending depths. -/
def depthAbove? (depths : List Nat) (bound : Nat) : Option Nat :=
  (depths.filter fun d => decide (d < bound)).getLast?

/-- The members that take the place of those removed at a depth: their ancestors at the next depth above, when they were the
deepest; none otherwise. -/
def rolledUp (cat : Catalog) (depths : List Nat) (depth : Nat) (removed : List Member) : Except AxisError (List Member) :=
  match depthAbove? depths depth with
  | some above => if depths.getLast? = some depth then cat.ancestors above removed else .ok []
  | none => .ok []

/-- Removes a level, which must be visible on the axis. A hierarchy of which nothing is left goes. -/
def removing (cat : Catalog) (axis : Axis) (level : Level) : Except AxisError Edit := do
  let visible ← (axis.visibleLevelsOf cat level.hierarchy).mapError fun
    | .hierarchyNotOnAxis _ => .levelNotVisible level.uniqueName
    | e => e
  if level ∈ visible then
    let (removed, kept) := (axis.membersOf level.hierarchy).partition fun m => decide (m.depth = level.depth)
    let left := kept ++ (← rolledUp cat (axis.depths level.hierarchy) level.depth removed)
    return {
      selections := axis.selections.filterMap fun s =>
        if s.hierarchy = level.hierarchy then
          if left = [] then none else some { s with members := distinctMembers left }
        else some s
      notes := [removedNote level removed.length left.length] }
  else
    throw (.levelNotVisible level.uniqueName)

/-- The levels of a hierarchy among several, by depth, the first of each depth. -/
def levelsIn (hierarchy : String) (levels : List Level) : List Level :=
  distinctOn Level.depth
    (sortBy (fun a b => decide (a.depth ≤ b.depth)) (levels.filter fun l => decide (l.hierarchy = hierarchy)))

/-- The members that levels by depth select: all those of the first, and those to which each further level drills. -/
def filled (cat : Catalog) : List Level → Except AxisError (List Member)
  | [] => .ok []
  | first :: deeper => do
    let ms ← asked (cat.membersOf first none)
    deeper.foldlM (fun ms level => do return ms ++ (← cat.expand ms level)) ms

/-- Places levels: each hierarchy among them in the order in which they first occur. -/
def placing (cat : Catalog) (levels : List Level) : Except AxisError Edit := do
  let selections ← (distinctOn id (levels.map (·.hierarchy))).mapM fun h => do
    return (⟨h, ← filled cat (levelsIn h levels)⟩ : Selection)
  return { selections }

end Edit

/-- What a mutation makes of the selections of an axis. -/
def Mutation.edit (cat : Catalog) (axis : Axis) : Mutation → Except AxisError Edit
  | .add level position => Edit.adding cat axis level position
  | .remove level => Edit.removing cat axis level
  | .place levels => Edit.placing cat levels

/-- The axis that joins sets of members; there must be one. -/
def Axis.ofSets (sets : List (List Member)) (hierarchize : Bool) : Except AxisError Axis :=
  let (nodes, ids) := Arena.layAll #[] (sets.map TupleSet.literal)
  match nodes.joinChain ids with
  | some (nodes, root) => .ok { nodes, root := some root, hierarchize }
  | none => .error .emptyAxis

/-- The members of each selection, none of them twice and in hierarchical order, and the keys remembered afterwards. -/
def sortedSets (cat : Catalog) (keys : SortKeys) : List Selection → Except AxisError (List (List Member)) × SortKeys
  | [] => (.ok [], keys)
  | s :: ss =>
    match keys.sort cat (distinctMembers s.members) with
    | (.error e, keys) => (.error e, keys)
    | (.ok ms, keys) =>
      let (rest, keys) := sortedSets cat keys ss
      (rest.map (ms :: ·), keys)

/-- The axis built anew from selections, and the keys remembered afterwards. -/
def rebuilt (cat : Catalog) (keys : SortKeys) (hierarchize : Bool) (selections : List Selection) :
    Except AxisError Axis × SortKeys :=
  let (sets, keys) := sortedSets cat keys selections
  (sets.bind fun sets => Axis.ofSets sets hierarchize, keys)

/-- What comes of a mutation: the new axis or an error, the sort keys remembered afterwards, and what was reported. -/
structure Outcome where
  result : Except AxisError Axis
  keys : SortKeys
  log : List LogLine

/-- Runs a mutation on an axis with the sort keys remembered so far. -/
def Mutation.run (m : Mutation) (cat : Catalog) (mode : HierarchizeMode) (keys : SortKeys) (axis : Axis) : Outcome :=
  match m.edit cat axis with
  | .error e => ⟨.error e, keys, []⟩
  | .ok edit =>
    let (result, keys) := rebuilt cat keys (mode.apply axis.hierarchize) edit.selections
    ⟨result, keys, edit.notes.map fun note => ⟨.debug, .axis, note⟩⟩

end CubeAxes
