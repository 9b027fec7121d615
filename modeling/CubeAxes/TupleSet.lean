import CubeAxes.Catalog
import CubeAxes.Distinct

/-!
# Tuple sets: what an axis selects

A tuple picks a member from each of several hierarchies. A set of tuples is built from sets of members of one hierarchy, each of
which is a tuple of one; from joins, which put every tuple of the left with every tuple of the right; and from unions. A join
also says how it was written: as a call, or as a tuple in braces.
-/

namespace CubeAxes

/-- How a join is written: as a function of two sets, or as a tuple of single members. -/
inductive JoinForm where
  | call | tuple
  deriving DecidableEq, Repr

/-- A set of tuples of members. -/
inductive TupleSet where
  | members (ms : List Member)
  | join (form : JoinForm) (left right : TupleSet)
  | union (branches : List TupleSet)
  deriving Repr

/-- The members of a list, each under one unique name only. -/
def distinctMembers (ms : List Member) : List Member := distinctOn Member.uniqueName ms

namespace TupleSet

/-- A set of members none of which is repeated. -/
def literal (ms : List Member) : TupleSet := members (distinctMembers ms)

/-- Sets joined one after the other, nested to the right; no sets have no join. -/
def chain (form : JoinForm) : List TupleSet → Option TupleSet
  | [] => none
  | [t] => some t
  | t :: ts => (chain form ts).map (join form t)

mutual

/-- The number of sets that a set is built from, itself included. -/
def size : TupleSet → Nat
  | members _ => 1
  | join _ left right => left.size + right.size + 1
  | union branches => sizeAll branches + 1

/-- The number of sets that several sets are built from. -/
def sizeAll : List TupleSet → Nat
  | [] => 0
  | t :: ts => t.size + sizeAll ts

end

mutual

/-- The sets of members in a set, from left to right. -/
def memberSets : TupleSet → List (List Member)
  | members ms => [ms]
  | join _ left right => left.memberSets ++ right.memberSets
  | union branches => memberSetsAll branches

/-- The sets of members in several sets. -/
def memberSetsAll : List TupleSet → List (List Member)
  | [] => []
  | t :: ts => t.memberSets ++ memberSetsAll ts

end

mutual

/-- Whether a set has no tuples: a join has none if either side has none, a union if every branch has none. -/
def selectsNothing : TupleSet → Bool
  | members ms => ms.isEmpty
  | join _ left right => left.selectsNothing || right.selectsNothing
  | union branches => allSelectNothing branches

/-- Whether several sets have no tuples. -/
def allSelectNothing : List TupleSet → Bool
  | [] => true
  | t :: ts => t.selectsNothing && allSelectNothing ts

end

/-- Every set counts itself. -/
theorem one_le_size (t : TupleSet) : 1 ≤ t.size := by
  cases t <;> simp [size]

/-- The sizes of two lists of sets add up. -/
theorem sizeAll_append (ts us : List TupleSet) : sizeAll (ts ++ us) = sizeAll ts + sizeAll us := by
  induction ts with
  | nil => simp [sizeAll]
  | cons t ts ih => simp [sizeAll, ih, Nat.add_assoc]

/-- The sets of members in several sets are those of each in turn. -/
theorem memberSetsAll_eq (ts : List TupleSet) : memberSetsAll ts = ts.flatMap memberSets := by
  induction ts with
  | nil => rfl
  | cons t ts ih => simp [memberSetsAll, ih]

/-- Several sets have no tuples when each has none. -/
theorem allSelectNothing_eq (ts : List TupleSet) : allSelectNothing ts = ts.all selectsNothing := by
  induction ts with
  | nil => rfl
  | cons t ts ih => simp [allSelectNothing, ih]

end TupleSet

end CubeAxes
