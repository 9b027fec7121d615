import CubeAxes.Catalog
import CubeAxes.Grammar.Parser

/-!
# Errors: why something cannot be done with an axis

The text of a query may be wrong, the catalog may give no answer, or what is asked may not fit the axis. The words of a catalog's
error and of a parse error are passed on.
-/

namespace CubeAxes

/-- What is wrong with a set whose text is not. -/
inductive SetFault where
  | emptyOperand (position : Nat)
  | noOperands
  | argumentCount (count : Nat)
  | mixedHierarchies (first other : String)
  | mixedElements
  | repeatedHierarchy (hierarchy : String)
  | emptyTuple
  deriving DecidableEq, Repr

/-- The words for a fault. -/
def SetFault.message : SetFault → String
  | .emptyOperand position => "CrossJoin operand " ++ Nat.repr position ++ " selects no members"
  | .noOperands => "CrossJoin without operands"
  | .argumentCount count => "Hierarchize takes one set, found " ++ Nat.repr count
  | .mixedHierarchies first other => "set mixes hierarchies " ++ first ++ " and " ++ other
  | .mixedElements => "members and tuples mixed in one set"
  | .repeatedHierarchy hierarchy => "hierarchy " ++ hierarchy ++ " appears twice in a tuple"
  | .emptyTuple => "empty tuple"

/-- Why something cannot be done with an axis. -/
inductive AxisError where
  | hierarchyNotOnAxis (hierarchy : String)
  | levelNotVisible (level : String)
  | invalidPosition (position : Int) (count : Nat)
  | emptyAxis
  | catalog (e : CatalogError)
  | parse (e : ParseError)
  | unknownMember (name : String)
  | malformedSet (fault : SetFault)
  deriving DecidableEq, Repr

/-- The words for an error. -/
def AxisError.message : AxisError → String
  | .hierarchyNotOnAxis hierarchy => "Hierarchy " ++ hierarchy ++ " is not on the axis"
  | .levelNotVisible level => "Level " ++ level ++ " is not visible on the axis"
  | .invalidPosition position count =>
    "Invalid position " ++ Int.repr position ++ ": the axis holds " ++ Nat.repr count ++ " hierarchies"
  | .emptyAxis => "An axis needs at least one level"
  | .catalog e => e.message
  | .parse e => "Parse error: " ++ e.message
  | .unknownMember name => "Unknown member: " ++ name
  | .malformedSet fault => "Malformed set: " ++ fault.message

/-- What a catalog answers, its errors being errors of what is done with the axis. -/
def asked {α : Type} (answer : Except CatalogError α) : Except AxisError α := answer.mapError .catalog

end CubeAxes
