import CubeAxes.Statement

/-!
# Parsers: reading tokens one after the other

A parser takes the tokens that are left and gives a value, or the cause of a failure, and in either case the tokens that it
leaves: a failed reading stops where it failed, and another can go on from there. A parser looks at no more than the next token,
so an expectation that is not met takes nothing.
-/

namespace CubeAxes

/-- What the grammar wants at one place. -/
inductive Expectation where
  | token (t : Token)
  | keyword (text : String)
  | cubeName | axisName | axisOrdinal | setExpression | memberReference | segmentOrChildren
  deriving DecidableEq, Repr

/-- An expectation as a message words it. -/
def Expectation.description : Expectation → String
  | .token t => t.description
  | .keyword text => text
  | .cubeName => "cube name"
  | .axisName => "axis name"
  | .axisOrdinal => "axis ordinal"
  | .setExpression => "set expression"
  | .memberReference => "member reference"
  | .segmentOrChildren => "name segment or Children"

/-- Why a text is not what the grammar describes. -/
inductive ParseError where
  | expected (wanted : Expectation) (found : Option Token)
  | leftOver (found : Option Token)
  | noExpression
  | duplicateAxis (axis : AxisName)
  | unknownAxis (word : String)
  | unsupportedOrdinal (ordinal : Nat)
  | unsupportedFunction (word : String)
  | wrongArgumentCount (function : SetFunction) (count : Nat)
  | childrenNotAllowed (path : MemberPath)
  deriving DecidableEq, Repr

/-- The words for a parse error. -/
def ParseError.message : ParseError → String
  | .expected wanted found => "Expected " ++ wanted.description ++ ", found " ++ Token.foundDescription found
  | .leftOver found => "Unexpected token after expression: " ++ Token.foundDescription found
  | .noExpression => "Empty expression"
  | .duplicateAxis axis => "Duplicate axis " ++ axis.text
  | .unknownAxis word => "Unknown axis " ++ word
  | .unsupportedOrdinal ordinal => "Unsupported axis ordinal " ++ Nat.repr ordinal
  | .unsupportedFunction word => "Unsupported function " ++ word
  | .wrongArgumentCount function count =>
    "Wrong number of arguments for " ++ function.name ++ ": " ++ Nat.repr count
  | .childrenNotAllowed path => path.text ++ ".Children is not allowed here"

/-- A reader of tokens. -/
abbrev Parser (α : Type) : Type := EStateM ParseError (List Token) α

namespace Parser

/-- The next token; none at the end. It is not taken. -/
def next : Parser (Option Token) := fun ts => .ok ts.head? ts

/-- Takes the next token, if there is one. -/
def advance : Parser Unit := fun ts => .ok () ts.tail

/-- Fails where the reading stands, for a given cause. -/
def fail {α : Type} (e : ParseError) : Parser α := fun ts => .error e ts

/-- Fails for what the next token is. -/
def expected {α : Type} (wanted : Expectation) : Parser α := fun ts => .error (.expected wanted ts.head?) ts

/-- Takes a given token. -/
def token (t : Token) : Parser Unit := do
  if (← next) = some t then advance else expected (.token t)

/-- Whether the next token is a keyword; none is taken. -/
def atKeyword (text : String) : Parser Bool := do
  return (← next).any (·.isKeyword text)

/-- Takes a keyword. -/
def keyword (text : String) : Parser Unit := do
  if ← atKeyword text then advance else expected (.keyword text)

/-- Nothing is left. -/
def atEnd : Parser Unit := do
  match ← next with
  | none => return ()
  | found => fail (.leftOver found)

/-- One item and as many more as there are commas after an item, up to a bound on their number. -/
def itemsUpTo {α : Type} (item : Parser α) : Nat → Parser (List α)
  | 0 => do return [← item]
  | n + 1 => do
    let first ← item
    if (← next) = some .comma then
      advance
      return first :: (← itemsUpTo item n)
    else
      return [first]

/-- Items separated by commas, at least one. A comma is a token, so there are no more of them than tokens are left. -/
def items {α : Type} (item : Parser α) : Parser (List α) := fun ts => itemsUpTo item ts.length ts

end Parser

end CubeAxes
