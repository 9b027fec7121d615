import CubeAxes.SetExpr

/-!
# Statements: a whole query as it is written

A statement puts sets on axes, names a cube, and may restrict it to a slicer. There are five axes, in the order of their
ordinals; a statement lists its clauses in any order and no axis twice.
-/

namespace CubeAxes

/-- The axes of a query. -/
inductive AxisName where
  | columns | rows | pages | chapters | sections
  deriving DecidableEq, Repr

namespace AxisName

/-- The axes by ordinal. -/
def all : List AxisName := [columns, rows, pages, chapters, sections]

/-- The name of an axis. -/
def text : AxisName → String
  | .columns => "COLUMNS"
  | .rows => "ROWS"
  | .pages => "PAGES"
  | .chapters => "CHAPTERS"
  | .sections => "SECTIONS"

/-- The axis of an ordinal. -/
def ofOrdinal? (n : Nat) : Option AxisName := all[n]?

/-- The axis of a name, in any case. -/
def ofName? (s : String) : Option AxisName := all.find? fun a => sameWord a.text s

end AxisName

/-- The set on one axis. -/
structure AxisClause where
  set : SetExpr
  axis : AxisName
  deriving Repr

/-- What a query is restricted to: a member, or a member of each of several hierarchies. -/
inductive Slicer where
  | member (path : MemberPath)
  | tuple (paths : List MemberPath)
  deriving DecidableEq, Repr

/-- The text of a slicer. -/
def Slicer.text : Slicer → String
  | .member p => p.text
  | .tuple ps => "(" ++ MemberPath.listText ps ++ ")"

/-- A query as it is written, its clauses in the order of the text. -/
structure SelectStatement where
  clauses : List AxisClause
  cube : String
  slicer : Option Slicer
  deriving Repr

end CubeAxes
