import CubeAxes.Grammar.Statements
import CubeAxes.Resolution
import CubeAxes.TupleSet.Written
import CubeAxes.Visibility

/-!
# Queries: a statement whose axes are resolved

A query keeps its axes and its text together. The text is written from the axes, so it has full names where the text it was read
from had short ones, and it is written anew whenever an axis is replaced; nothing else changes either.
-/

namespace CubeAxes

/-- A query: its cube, what stands on its axes, its slicer, how it is written, and its text. -/
structure Query where
  cube : String
  axes : AxisName → Option Axis
  slicer : Option Slicer
  render : RenderOptions
  text : String

namespace Query

/-- The axes of a query in the order of their ordinals. -/
def axisList (q : Query) : List (AxisName × Axis) := AxisName.all.filterMap fun a => (q.axes a).map (a, ·)

/-- The text written from the axes of a query. -/
def written (q : Query) : String := queryText q.render q.axisList q.cube q.slicer

/-- A query whose text is written anew. -/
def refreshed (q : Query) : Query := { q with text := q.written }

/-- A query with another axis in the place of one name. -/
def replaceAxis (q : Query) (name : AxisName) (axis : Axis) : Query :=
  refreshed { q with axes := fun a => if a = name then some axis else q.axes a }

/-- The axes of clauses in their order, and what was reported, also when a clause has none. -/
def resolveClauses (cat : Catalog) : List AxisClause → Except AxisError (List (AxisName × Axis)) × List LogLine
  | [] => (.ok [], [])
  | c :: cs =>
    match cat.resolveAxis c.set with
    | .error e => (.error e, [])
    | .ok axis =>
      let (rest, log) := resolveClauses cat cs
      (rest.map ((c.axis, axis) :: ·),
        axis.resolvedLine :: ⟨.debug, .parse, "axis " ++ c.axis.text ++ " resolved"⟩ :: log)

/-- The query of a statement, and what was reported. -/
def ofStatement (cat : Catalog) (render : RenderOptions) (s : SelectStatement) : Except AxisError Query × List LogLine :=
  match resolveClauses cat s.clauses with
  | (.error e, log) => (.error e, log)
  | (.ok axes, log) =>
    let q : Query := { cube := s.cube, axes := (axes.lookup ·), slicer := s.slicer, render, text := "" }
    (.ok q.refreshed,
      log ++ [⟨.info, .parse, "query on [" ++ s.cube ++ "] with " ++ Nat.repr axes.length ++ " axes"⟩])

/-- The query that a text describes, and what was reported. -/
def ofText (cat : Catalog) (render : RenderOptions) (text : String) : Except AxisError Query × List LogLine :=
  match SelectStatement.ofText text with
  | .error e => (.error (.parse e), [])
  | .ok s => ofStatement cat render s

/-- The visible levels of an axis; an axis that the query does not use has none. -/
def visibleLevels (q : Query) (cat : Catalog) (name : AxisName) : Except AxisError (List Level) :=
  match q.axes name with
  | some axis => axis.visibleLevels cat
  | none => .ok []

/-- The visible levels of a hierarchy on the first axis on which it occurs. -/
def visibleLevelsOf (q : Query) (cat : Catalog) (hierarchy : String) : Except AxisError (List Level) :=
  match q.axisList.find? fun a => decide (hierarchy ∈ a.2.hierarchies) with
  | some (_, axis) => axis.visibleLevelsOf cat hierarchy
  | none => .error (.hierarchyNotOnAxis hierarchy)

end Query

end CubeAxes
