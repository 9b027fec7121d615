import CubeAxes.Token.Scan
import CubeAxes.Grammar.Parser

/-!
# The grammar of sets

    set       →  reference  |  "{" [ element { "," element } ] "}"  |  function "(" set { "," set } ")"
    element   →  reference  |  tuple
    tuple     →  "(" member { "," member } ")"
    reference →  member  |  member "." Children
    member    →  name { "." name }

A function takes as many sets as `SetFunction.takes` says, and a tuple holds members only. Sets nest in the arguments of
functions and nowhere else.
-/

namespace CubeAxes.Parser

/-- The rest of a reference whose names so far are `segments`: more names, each after a dot, up to the first that is not followed
by one, or the word for children. -/
def segmentsFrom (segments : List String) : List Token → EStateM.Result ParseError (List Token) Reference
  | .dot :: .name text :: ts => segmentsFrom (segments ++ [text]) ts
  | .dot :: t :: ts =>
    if t.isKeyword "Children" then .ok (.children ⟨segments⟩) ts
    else .error (.expected .segmentOrChildren (some t)) (t :: ts)
  | [.dot] => .error (.expected .segmentOrChildren none) []
  | ts => .ok (.member ⟨segments⟩) ts

/-- A reference. -/
def reference : Parser Reference := do
  match ← next with
  | some (.name text) =>
    advance
    segmentsFrom [text]
  | _ => expected .memberReference

/-- A member, which children are not. -/
def member : Parser MemberPath := do
  match ← reference with
  | .member p => return p
  | .children p => fail (.childrenNotAllowed p)

/-- A tuple of members. -/
def tuple : Parser (List MemberPath) := do
  token .leftParen
  let paths ← items member
  token .rightParen
  return paths

/-- What stands between braces. -/
def element : Parser SetElement := do
  if (← next) = some .leftParen then
    return .tuple (← tuple)
  else
    return .reference (← reference)

/-- A set in braces, which can be empty. -/
def braced : Parser SetExpr := do
  token .leftBrace
  if (← next) = some .rightBrace then
    advance
    return .braced []
  else
    let elements ← items element
    token .rightBrace
    return .braced elements

/-- A function of sets, whose word is the next token; `argument` reads one of them. -/
def call (argument : Parser SetExpr) (word : String) : Parser SetExpr := do
  match SetFunction.ofName? word with
  | none => fail (.unsupportedFunction word)
  | some function =>
    advance
    token .leftParen
    let args ← items argument
    token .rightParen
    if function.takes args.length then
      return .call function args
    else
      fail (.wrongArgumentCount function args.length)

/-- A set in which functions nest at most as deep as a bound. With no token left and the bound at zero there is no set. -/
def setUpTo : Nat → Parser SetExpr
  | 0 => expected .setExpression
  | n + 1 => do
    match ← next with
    | some (.word text) => call (setUpTo n) text
    | some .leftBrace => braced
    | some (.name _) => return .reference (← reference)
    | _ => expected .setExpression

/-- A set. Each function takes a token, so functions nest no deeper than tokens are left. -/
def set : Parser SetExpr := fun ts => setUpTo ts.length ts

/-- A set with nothing after it. -/
def wholeSet : Parser SetExpr := do
  match ← next with
  | none => fail .noExpression
  | some _ =>
    let s ← set
    atEnd
    return s

end CubeAxes.Parser

namespace CubeAxes

/-- The set that a text describes. -/
def SetExpr.ofText (text : String) : Except ParseError SetExpr :=
  match Parser.wholeSet (Token.ofText text) with
  | .ok s _ => .ok s
  | .error e _ => .error e

end CubeAxes
