import CubeAxes.MemberPath

/-!
# Set expressions: what a query puts on an axis

A set expression is written with references, with braces around references or tuples, and with three functions. Which members it
selects is settled by a catalog (`CubeAxes.Resolution`).
-/

namespace CubeAxes

/-- The functions that build a set from sets. -/
inductive SetFunction where
  | crossJoin | union | hierarchize
  deriving DecidableEq, Repr

namespace SetFunction

/-- The name of a function. -/
def name : SetFunction → String
  | .crossJoin => "CrossJoin"
  | .union => "Union"
  | .hierarchize => "Hierarchize"

/-- The function of a name, in any case. -/
def ofName? (s : String) : Option SetFunction :=
  [crossJoin, union, hierarchize].find? fun f => sameWord f.name s

/-- Whether a function takes that many sets: hierarchizing takes one, the others at least two. -/
def takes : SetFunction → Nat → Bool
  | .hierarchize, n => n == 1
  | _, n => decide (2 ≤ n)

end SetFunction

/-- What can stand between braces. -/
inductive SetElement where
  | reference (r : Reference)
  | tuple (paths : List MemberPath)
  deriving DecidableEq, Repr

/-- A set as a query writes it. -/
inductive SetExpr where
  | reference (r : Reference)
  | braced (elements : List SetElement)
  | call (function : SetFunction) (args : List SetExpr)
  deriving Repr

end CubeAxes
