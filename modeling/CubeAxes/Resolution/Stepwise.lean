import CubeAxes.Arena.Emptiness
import CubeAxes.Resolution

/-!
# Resolution step by step

A set can be resolved straight into an arena: each part adds its nodes as soon as it is resolved, and whether an operand of a join selects
nothing is told from the nodes that are there by then.
-/

namespace CubeAxes

namespace Catalog

/-- Adds a node for each member of a tuple, none of which may be of a hierarchy that is used already. -/
def tupleMembersInto (cat : Catalog) (nodes : Arena) (used : List String) : List MemberPath → Except AxisError (Arena × List Nat)
  | [] => .ok (nodes, [])
  | p :: ps => do
    let m ← cat.lookup p.text
    if m.hierarchy ∈ used then throw (.malformedSet (.repeatedHierarchy m.hierarchy))
    else
      let (nodes, id) := nodes.add (.members [m])
      let (nodes, ids) ← cat.tupleMembersInto nodes (m.hierarchy :: used) ps
      return (nodes, id :: ids)

/-- Adds the nodes of a tuple: those of its members and then their joins. -/
def resolveTupleInto (cat : Catalog) (nodes : Arena) (paths : List MemberPath) : Except AxisError (Arena × Nat) := do
  let (nodes, ids) ← cat.tupleMembersInto nodes [] paths
  match nodes.chain .tuple ids with
  | some joined => return joined
  | none => throw (.malformedSet .emptyTuple)

/-- Adds the nodes of several tuples one after the other. -/
def resolveTuplesInto (cat : Catalog) (nodes : Arena) : List (List MemberPath) → Except AxisError (Arena × List Nat)
  | [] => .ok (nodes, [])
  | paths :: tuples => do
    let (nodes, id) ← cat.resolveTupleInto nodes paths
    let (nodes, ids) ← cat.resolveTuplesInto nodes tuples
    return (nodes, id :: ids)

/-- Adds the nodes of what stands in braces: one for members, and for several tuples a union after theirs. -/
def resolveBracedInto (cat : Catalog) (nodes : Arena) (elements : List SetElement) : Except AxisError (Arena × Nat) :=
  let tuples := elements.filterMap SetElement.tuple?
  if tuples = [] then do
    let ms := distinctMembers (← (elements.filterMap SetElement.reference?).mapM cat.referenced).flatten
    match mixture? ms with
    | some fault => throw (.malformedSet fault)
    | none => return nodes.add (.members ms)
  else if tuples.length = elements.length then do
    match ← cat.resolveTuplesInto nodes tuples with
    | (nodes, [id]) => return (nodes, id)
    | (nodes, ids) => return nodes.add (.union ids)
  else .error (.malformedSet .mixedElements)

mutual

/-- Adds the nodes of a set and says its number. -/
def resolveInto (cat : Catalog) (nodes : Arena) : SetExpr → Except AxisError (Arena × Nat)
  | .reference r => do return nodes.add (.members (← cat.referenced r))
  | .braced elements => cat.resolveBracedInto nodes elements
  | .call .hierarchize args => cat.resolveOnlyInto nodes args
  | .call .crossJoin args => do
    let (nodes, ids) ← cat.resolveOperandsInto nodes 1 args
    match nodes.chain .call ids with
    | some joined => return joined
    | none => throw (.malformedSet .noOperands)
  | .call .union args => do
    let (nodes, ids) ← cat.resolveAllInto nodes args
    return nodes.add (.union ids)

/-- Adds the nodes of the only one of several sets. -/
def resolveOnlyInto (cat : Catalog) (nodes : Arena) : List SetExpr → Except AxisError (Arena × Nat)
  | [arg] => cat.resolveInto nodes arg
  | args => .error (.malformedSet (.argumentCount args.length))

/-- Adds the nodes of the operands of a join from a position on, each of which must select something as soon as its nodes are there. -/
def resolveOperandsInto (cat : Catalog) (nodes : Arena) (position : Nat) : List SetExpr → Except AxisError (Arena × List Nat)
  | [] => .ok (nodes, [])
  | arg :: args => do
    let (nodes, id) ← cat.resolveInto nodes arg
    if nodes.selectsNothing id then throw (.malformedSet (.emptyOperand position))
    else
      let (nodes, ids) ← cat.resolveOperandsInto nodes (position + 1) args
      return (nodes, id :: ids)

/-- Adds the nodes of several sets one after the other. -/
def resolveAllInto (cat : Catalog) (nodes : Arena) : List SetExpr → Except AxisError (Arena × List Nat)
  | [] => .ok (nodes, [])
  | arg :: args => do
    let (nodes, id) ← cat.resolveInto nodes arg
    let (nodes, ids) ← cat.resolveAllInto nodes args
    return (nodes, id :: ids)

end

end Catalog

end CubeAxes
