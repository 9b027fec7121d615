import CubeAxes.Ancestry
import CubeAxes.Axis
import CubeAxes.LogLine

/-!
# Resolution: from a set as it is written to the tuples it selects

References are looked up in a catalog, in the order of the text, and the set is checked on the way: braces hold members of one
hierarchy or tuples, a tuple holds no hierarchy twice, and no operand of a join selects nothing. Hierarchizing has no effect on
what is selected; at the outside of a set it becomes the mark of the axis.
-/

namespace CubeAxes

/-- The tuple that an element is, if it is one. -/
def SetElement.tuple? : SetElement → Option (List MemberPath)
  | .tuple paths => some paths
  | .reference _ => none

/-- The reference that an element is, if it is one. -/
def SetElement.reference? : SetElement → Option Reference
  | .tuple _ => none
  | .reference r => some r

/-- Whether a set is hierarchized at the outside. -/
def SetExpr.isHierarchized : SetExpr → Bool
  | .call .hierarchize _ => true
  | _ => false

/-- The fault of members that are not all of one hierarchy: that of the first, and the first that differs. -/
def mixture? : List Member → Option SetFault
  | [] => none
  | m :: ms => (ms.find? fun n => decide (n.hierarchy ≠ m.hierarchy)).map fun n => .mixedHierarchies m.hierarchy n.hierarchy

namespace Catalog

/-- The members that a reference names. Children are the descendants one level down; the deepest level has none. -/
def referenced (cat : Catalog) : Reference → Except AxisError (List Member)
  | .member p => do return [← cat.lookup p.text]
  | .children p => do
    let parent ← cat.lookup p.text
    let levels ← asked (cat.levelsOf parent.hierarchy)
    match levels[parent.depth + 1]? with
    | some level => asked (cat.membersOf level (some parent))
    | none => return []

/-- The members of a tuple, none of which may be of a hierarchy that is used already. -/
def tupleMembers (cat : Catalog) (used : List String) : List MemberPath → Except AxisError (List Member)
  | [] => .ok []
  | p :: ps => do
    let m ← cat.lookup p.text
    if m.hierarchy ∈ used then throw (.malformedSet (.repeatedHierarchy m.hierarchy))
    else return m :: (← cat.tupleMembers (m.hierarchy :: used) ps)

/-- A tuple as a join of single members. -/
def resolveTuple (cat : Catalog) (paths : List MemberPath) : Except AxisError TupleSet := do
  let ms ← cat.tupleMembers [] paths
  match TupleSet.chain .tuple (ms.map fun m => .members [m]) with
  | some t => return t
  | none => throw (.malformedSet .emptyTuple)

/-- Members in braces, none of them twice. -/
def resolveMembers (cat : Catalog) (references : List Reference) : Except AxisError TupleSet := do
  let ms := distinctMembers (← references.mapM cat.referenced).flatten
  match mixture? ms with
  | some fault => throw (.malformedSet fault)
  | none => return .members ms

/-- Tuples in braces; a single one is not a union. -/
def resolveTuples (cat : Catalog) (tuples : List (List MemberPath)) : Except AxisError TupleSet := do
  match ← tuples.mapM cat.resolveTuple with
  | [t] => return t
  | ts => return .union ts

/-- A set in braces, which holds members or tuples. -/
def resolveBraced (cat : Catalog) (elements : List SetElement) : Except AxisError TupleSet :=
  let tuples := elements.filterMap SetElement.tuple?
  if tuples = [] then cat.resolveMembers (elements.filterMap SetElement.reference?)
  else if tuples.length = elements.length then cat.resolveTuples tuples
  else .error (.malformedSet .mixedElements)

mutual

/-- The tuples that a set selects. -/
def resolve (cat : Catalog) : SetExpr → Except AxisError TupleSet
  | .reference r => do return .members (← cat.referenced r)
  | .braced elements => cat.resolveBraced elements
  | .call .hierarchize args => cat.resolveOnly args
  | .call .crossJoin args => do
    match TupleSet.chain .call (← cat.resolveOperands 1 args) with
    | some t => return t
    | none => throw (.malformedSet .noOperands)
  | .call .union args => do return .union (← cat.resolveAll args)

/-- The tuples that the only one of several sets selects. -/
def resolveOnly (cat : Catalog) : List SetExpr → Except AxisError TupleSet
  | [arg] => cat.resolve arg
  | args => .error (.malformedSet (.argumentCount args.length))

/-- The operands of a join from a position on, none of which may select nothing. -/
def resolveOperands (cat : Catalog) (position : Nat) : List SetExpr → Except AxisError (List TupleSet)
  | [] => .ok []
  | arg :: args => do
    let t ← cat.resolve arg
    if t.selectsNothing then throw (.malformedSet (.emptyOperand position))
    else return t :: (← cat.resolveOperands (position + 1) args)

/-- The tuples that each of several sets selects. -/
def resolveAll (cat : Catalog) : List SetExpr → Except AxisError (List TupleSet)
  | [] => .ok []
  | arg :: args => do
    let t ← cat.resolve arg
    return t :: (← cat.resolveAll args)

end

/-- The axis on which a set is put. -/
def resolveAxis (cat : Catalog) (set : SetExpr) : Except AxisError Axis := do
  return .ofTuples (← cat.resolve set) set.isHierarchized

end Catalog

/-- The line that reports an axis that was resolved. -/
def Axis.resolvedLine (axis : Axis) : LogLine :=
  ⟨.debug, .parse, "resolved axis into " ++ Nat.repr axis.nodes.size ++ " nodes"⟩

end CubeAxes
