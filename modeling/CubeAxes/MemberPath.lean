import CubeAxes.Token

/-!
# Member paths: the names by which a query refers to a member

A path is the list of names from a hierarchy down to a member. Its text puts each name in brackets and a dot between them. The
first name is the hierarchy's. A path means nothing by itself: a catalog says which member it names, if any.
-/

namespace CubeAxes

/-- The names from a hierarchy down to a member. -/
structure MemberPath where
  segments : List String
  deriving DecidableEq, Repr

namespace MemberPath

/-- The text of a path. -/
def text (p : MemberPath) : String := String.intercalate "." (p.segments.map bracketed)

/-- The hierarchy a path starts from; the path of no names has none. -/
def hierarchy? (p : MemberPath) : Option String := p.segments.head?

/-- The texts of several paths, separated by commas. -/
def listText (ps : List MemberPath) : String := String.intercalate ", " (ps.map text)

end MemberPath

/-- What a query can name: a member, or the children of one. -/
inductive Reference where
  | member (path : MemberPath)
  | children (path : MemberPath)
  deriving DecidableEq, Repr

end CubeAxes
