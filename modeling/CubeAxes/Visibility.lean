import CubeAxes.AxisError
import CubeAxes.Axis

/-!
# Visibility: the levels that an axis shows

A level is visible on an axis when the axis holds a member of its hierarchy at its depth and the catalog shows the level. Where
parts of an axis reach different depths, the levels of all of them count.
-/

namespace CubeAxes.Axis

/-- The visible levels of a hierarchy, by depth; the hierarchy must occur on the axis. -/
def visibleLevelsOf (axis : Axis) (cat : Catalog) (hierarchy : String) : Except AxisError (List Level) := do
  if axis.depths hierarchy = [] then
    throw (.hierarchyNotOnAxis hierarchy)
  else
    let levels ← asked (cat.levelsOf hierarchy)
    return ((axis.depths hierarchy).filterMap fun depth => levels[depth]?).filter cat.isVisible

/-- The visible levels of an axis, hierarchy by hierarchy. -/
def visibleLevels (axis : Axis) (cat : Catalog) : Except AxisError (List Level) := do
  return (← axis.hierarchies.mapM (axis.visibleLevelsOf cat)).flatten

end CubeAxes.Axis
