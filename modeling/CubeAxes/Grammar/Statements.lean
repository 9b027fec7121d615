import CubeAxes.Grammar.Sets

/-!
# The grammar of statements

    statement →  SELECT clause { "," clause } FROM name [ WHERE slicer ]
    clause    →  set ON axis
    axis      →  COLUMNS | ROWS | PAGES | CHAPTERS | SECTIONS  |  AXIS "(" number ")"
    slicer    →  member  |  tuple

No axis has two clauses, and an axis given by its ordinal is the axis of its name.
-/

namespace CubeAxes.Parser

/-- The ordinal of an axis in parentheses. -/
def ordinal : Parser AxisName := do
  token .leftParen
  match ← next with
  | some (.number n) =>
    advance
    token .rightParen
    match AxisName.ofOrdinal? n with
    | some axis => return axis
    | none => fail (.unsupportedOrdinal n)
  | _ => expected .axisOrdinal

/-- An axis, by name or by ordinal. -/
def axis : Parser AxisName := do
  match ← next with
  | some (.word text) =>
    advance
    if sameWord text "AXIS" then
      ordinal
    else
      match AxisName.ofName? text with
      | some axis => return axis
      | none => fail (.unknownAxis text)
  | _ => expected .axisName

/-- A clause for an axis that is not among the axes used. -/
def clause (used : List AxisName) : Parser AxisClause := do
  let set ← set
  keyword "ON"
  let axis ← axis
  if axis ∈ used then fail (.duplicateAxis axis) else return { set, axis }

/-- The clauses that follow those of the axes used, at most as many as a bound. -/
def clausesUpTo : Nat → List AxisName → Parser (List AxisClause)
  | 0, used => do return [← clause used]
  | n + 1, used => do
    let first ← clause used
    if (← next) = some .comma then
      advance
      return first :: (← clausesUpTo n (first.axis :: used))
    else
      return [first]

/-- The clauses of a statement. Each but the last takes an axis, so there are no more than axes. -/
def clauses : Parser (List AxisClause) := clausesUpTo AxisName.all.length []

/-- The name of a cube. -/
def cubeName : Parser String := do
  match ← next with
  | some (.name text) =>
    advance
    return text
  | _ => expected .cubeName

/-- What a statement is restricted to. -/
def slicer : Parser Slicer := do
  if (← next) = some .leftParen then
    return .tuple (← tuple)
  else
    return .member (← member)

/-- The restriction of a statement, if it has one. -/
def slicer? : Parser (Option Slicer) := do
  if ← atKeyword "WHERE" then
    advance
    return some (← slicer)
  else
    return none

/-- A statement with nothing after it. -/
def wholeStatement : Parser SelectStatement := do
  keyword "SELECT"
  let clauses ← clauses
  keyword "FROM"
  let cube ← cubeName
  let slicer ← slicer?
  atEnd
  return { clauses, cube, slicer }

end CubeAxes.Parser

namespace CubeAxes

/-- The statement that a text describes. -/
def SelectStatement.ofText (text : String) : Except ParseError SelectStatement :=
  match Parser.wholeStatement (Token.ofText text) with
  | .ok s _ => .ok s
  | .error e _ => .error e

end CubeAxes
