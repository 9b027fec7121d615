import CubeAxes.Arena.Walk
import CubeAxes.Sorted

/-!
# Axes: what stands on one axis of a query

An axis holds an arena and the node that is its set, and says whether the set is hierarchized, which is a matter of writing and
not of selecting. What the axis selects is summed up hierarchy by hierarchy: each hierarchy that occurs, in the order in which
they first occur, with its members in the order in which they first occur.
-/

namespace CubeAxes

/-- The share of one hierarchy in what an axis selects. -/
structure Selection where
  hierarchy : String
  members : List Member
  deriving DecidableEq, Repr

/-- What stands on an axis: nodes, the one that is the axis's set, if it has one, and whether the set is hierarchized. -/
structure Axis where
  nodes : Arena := #[]
  root : Option Nat := none
  hierarchize : Bool := false
  deriving DecidableEq, Repr

namespace Axis

/-- The axis on which a set stands. -/
def ofTuples (t : TupleSet) (hierarchize : Bool) : Axis :=
  let (nodes, root) := Arena.lay #[] t
  { nodes, root := some root, hierarchize }

/-- The set on an axis. -/
def tuples? (axis : Axis) : Option TupleSet := axis.root.map axis.nodes.tuples

/-- The sets of members on an axis, from left to right. -/
def memberSets (axis : Axis) : List (List Member) := axis.nodes.visit axis.root.toList

/-- The members on an axis, from left to right. -/
def members (axis : Axis) : List Member := axis.memberSets.flatten

/-- The hierarchies that occur on an axis, in the order in which they first occur. -/
def hierarchies (axis : Axis) : List String := distinctOn id (axis.members.map (·.hierarchy))

/-- The members of a hierarchy on an axis, in the order in which they first occur. -/
def membersOf (axis : Axis) (hierarchy : String) : List Member :=
  distinctMembers (axis.members.filter fun m => decide (m.hierarchy = hierarchy))

/-- What an axis selects, hierarchy by hierarchy. -/
def selections (axis : Axis) : List Selection :=
  axis.hierarchies.map fun h => ⟨h, axis.membersOf h⟩

/-- The depths at which an axis holds members of a hierarchy, ascending; whether a level is shown does not matter. -/
def depths (axis : Axis) (hierarchy : String) : List Nat :=
  sortBy (fun a b => decide (a ≤ b)) (distinctOn id ((axis.membersOf hierarchy).map (·.depth)))

end Axis

end CubeAxes
