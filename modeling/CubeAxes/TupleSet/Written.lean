import CubeAxes.Axis
import CubeAxes.Options
import CubeAxes.Statement

/-!
# Written sets: the text of a tuple set, of an axis and of a query

A set of members is written in braces, a join as a call or as one tuple in braces, and a union as calls of two sets nested to the
left. Functions are written in the case that the options ask for. A query writes its axes in the order given and leaves out the
axes on which nothing stands.
-/

namespace CubeAxes

/-- The name of a function in a case. -/
def SetFunction.written (f : SetFunction) (o : RenderOptions) : String :=
  match o.functionCase with
  | .pascal => f.name
  | .upper => f.name.map Char.toUpper

/-- A function of the texts of its arguments. -/
def SetFunction.callText (f : SetFunction) (o : RenderOptions) (args : List String) : String :=
  f.written o ++ "(" ++ String.intercalate ", " args ++ ")"

/-- The unique names of members, separated by commas. -/
def memberList (ms : List Member) : String := String.intercalate ", " (ms.map (·.uniqueName))

namespace TupleSet

/-- The text of a union whose branches have the texts given. -/
def unionText (o : RenderOptions) : List String → String
  | [] => "\x7b\x7d"
  | first :: rest => rest.foldl (fun left right => SetFunction.union.callText o [left, right]) first

mutual

/-- The text of a set. A join in the form of a tuple is written with all the members below it. -/
def text (o : RenderOptions) : TupleSet → String
  | members ms => "\x7b" ++ memberList ms ++ "\x7d"
  | join .call left right => SetFunction.crossJoin.callText o [left.text o, right.text o]
  | join .tuple left right => "\x7b(" ++ memberList (left.memberSets ++ right.memberSets).flatten ++ ")\x7d"
  | union branches => unionText o (texts o branches)

/-- The texts of several sets. -/
def texts (o : RenderOptions) : List TupleSet → List String
  | [] => []
  | t :: ts => t.text o :: texts o ts

end

end TupleSet

/-- The text of an axis: that of its set, in the call for hierarchizing if it is hierarchized; an axis without a set has none. -/
def Axis.text (o : RenderOptions) (axis : Axis) : String :=
  match axis.tuples? with
  | none => ""
  | some t => if axis.hierarchize then SetFunction.hierarchize.callText o [t.text o] else t.text o

/-- The text of what a query is restricted to; nothing is written of no restriction. -/
def restrictionText : Option Slicer → String
  | none => ""
  | some s => " WHERE " ++ s.text

/-- The text of a query with the axes given, in their order. -/
def queryText (o : RenderOptions) (axes : List (AxisName × Axis)) (cube : String) (slicer : Option Slicer) : String :=
  let clauses := (axes.filter fun a => a.2.root.isSome).map fun a => a.2.text o ++ " ON " ++ a.1.text
  "SELECT " ++ String.intercalate ", " clauses ++ " FROM " ++ bracketed cube ++ restrictionText slicer

end CubeAxes
