import CubeAxes.AxisError

/-!
# Ancestry: looking members up and following parents

A member gives its parent by name, so each step up asks the catalog. No chain of parents is longer than the catalog is high; one
that were would be a circle, and its member has no ancestor to be found.
-/

namespace CubeAxes.Catalog

/-- The member of a name, which must be there. -/
def lookup (cat : Catalog) (name : String) : Except AxisError Member := do
  match ← asked (cat.member name) with
  | some m => return m
  | none => throw (.unknownMember name)

/-- The error for a member of which a parent is asked for and that has none. -/
def noParent (m : Member) : AxisError := .unknownMember ("parent of " ++ m.uniqueName)

/-- The parent of a member, which must have one. -/
def parentOf (cat : Catalog) (m : Member) : Except AxisError Member :=
  match m.parent with
  | none => .error (noParent m)
  | some name => cat.lookup name

/-- Follows parents until the depth is at most `depth`, for at most so many steps. -/
def climb (cat : Catalog) (depth : Nat) : Nat → Member → Except AxisError Member
  | 0, m => if m.depth ≤ depth then .ok m else .error (noParent m)
  | n + 1, m =>
    if m.depth ≤ depth then .ok m
    else do cat.climb depth n (← cat.parentOf m)

/-- The ancestor of a member at a depth, which is the member itself at its own depth; above the member there is none. -/
def ancestorAt (cat : Catalog) (m : Member) (depth : Nat) : Except AxisError (Option Member) :=
  if m.depth < depth then .ok none
  else do return some (← cat.climb depth cat.height m)

end CubeAxes.Catalog
