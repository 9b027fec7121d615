import CubeAxes.Ancestry
import CubeAxes.Axis

/-!
# Drilling: the members that bring a level into a selection

Members selected above the level are drilled: the deepest of them give all their descendants at the level. Where nothing selected
is above the level, its members are reached from below, as the ancestors of what is selected.
-/

namespace CubeAxes

/-- The greatest depth above a level at which members are selected. -/
def anchorDepth? (selected : List Member) (level : Level) : Option Nat :=
  ((selected.map (·.depth)).filter fun d => decide (d < level.depth)).max?

namespace Catalog

/-- The descendants at a level of each of several members, one member after the other. -/
def descendants (cat : Catalog) (level : Level) (anchors : List Member) : Except AxisError (List Member) := do
  return (← anchors.mapM fun a => asked (cat.membersOf level (some a))).flatten

/-- The ancestors at a depth of those of several members that are not above it, one member after the other. -/
def ancestors (cat : Catalog) (depth : Nat) (ms : List Member) : Except AxisError (List Member) := do
  return (← ms.mapM fun m => cat.ancestorAt m depth).filterMap id

/-- The members that bring a level into a selection. -/
def expand (cat : Catalog) (selected : List Member) (level : Level) : Except AxisError (List Member) := do
  match anchorDepth? selected level with
  | some depth => return distinctMembers (← cat.descendants level (selected.filter fun m => decide (m.depth = depth)))
  | none => return distinctMembers (← cat.ancestors level.depth selected)

end Catalog

end CubeAxes
