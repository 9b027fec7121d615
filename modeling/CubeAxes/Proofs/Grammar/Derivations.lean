import CubeAxes.Grammar.Statements
import CubeAxes.Proofs.Grammar.Words

/-!
# Derivations of the grammar

Which token lists the grammar derives for a set and for a statement, said without the parser: a derivation takes the tokens apart
where the grammar does. Keywords, functions and axes are words of the grammar's own tables (`IsKeyword`, `IsFunction`, `IsNamed`). A
tuple holds members only, and no axis has two clauses.
-/

namespace CubeAxes

namespace Grammar

/-- Names, each after the first behind a dot. -/
inductive IsPath : List Token → List String → Prop
  | one (n : String) : IsPath [.name n] [n]
  | cons {ts : List Token} {ns : List String} (n : String) : IsPath ts ns → IsPath (.name n :: .dot :: ts) (n :: ns)

/-- A member, or the children of one. -/
inductive IsReference : List Token → Reference → Prop
  | member {ts : List Token} {ns : List String} : IsPath ts ns → IsReference ts (.member ⟨ns⟩)
  | children {ts : List Token} {ns : List String} {t : Token} :
      IsPath ts ns → IsKeyword t "Children" → IsReference (ts ++ [.dot, t]) (.children ⟨ns⟩)

/-- Items, each after the first behind a comma; there is at least one. -/
inductive Separated {α : Type} (item : List Token → α → Prop) : List Token → List α → Prop
  | one {ts : List Token} {a : α} : item ts a → Separated item ts [a]
  | cons {ts us : List Token} {a : α} {as : List α} :
      item ts a → Separated item us as → Separated item (ts ++ .comma :: us) (a :: as)

/-- A reference to a member. -/
def IsMember (ts : List Token) (p : MemberPath) : Prop := IsReference ts (.member p)

/-- Members in parentheses. -/
inductive IsTuple : List Token → List MemberPath → Prop
  | mk {ts : List Token} {paths : List MemberPath} :
      Separated IsMember ts paths → IsTuple (.leftParen :: (ts ++ [.rightParen])) paths

/-- What can stand between braces. -/
inductive IsElement : List Token → SetElement → Prop
  | reference {ts : List Token} {r : Reference} : IsReference ts r → IsElement ts (.reference r)
  | tuple {ts : List Token} {paths : List MemberPath} : IsTuple ts paths → IsElement ts (.tuple paths)

/-- A set. -/
inductive IsSet : List Token → SetExpr → Prop
  | reference {ts : List Token} {r : Reference} : IsReference ts r → IsSet ts (.reference r)
  | empty : IsSet [.leftBrace, .rightBrace] (.braced [])
  | braced {ts : List Token} {elements : List SetElement} :
      Separated IsElement ts elements → IsSet (.leftBrace :: (ts ++ [.rightBrace])) (.braced elements)
  | call {t : Token} {f : SetFunction} {name : String} {ts : List Token} {args : List SetExpr} :
      IsFunction f name args.length → IsKeyword t name → Separated IsSet ts args →
      IsSet (t :: .leftParen :: (ts ++ [.rightParen])) (.call f args)

/-- An axis, by name or by ordinal. -/
inductive IsAxis : List Token → AxisName → Prop
  | name {t : Token} {a : AxisName} {name : String} {n : Nat} : IsNamed a name n → IsKeyword t name → IsAxis [t] a
  | ordinal {t : Token} {a : AxisName} {name : String} {n : Nat} :
      IsNamed a name n → IsKeyword t "AXIS" → IsAxis [t, .leftParen, .number n, .rightParen] a

/-- A set on an axis. -/
inductive IsClause : List Token → AxisClause → Prop
  | mk {ts us : List Token} {s : SetExpr} {a : AxisName} {t : Token} :
      IsSet ts s → IsKeyword t "ON" → IsAxis us a → IsClause (ts ++ t :: us) ⟨s, a⟩

/-- What a statement is restricted to. -/
inductive IsSlicer : List Token → Slicer → Prop
  | member {ts : List Token} {p : MemberPath} : IsMember ts p → IsSlicer ts (.member p)
  | tuple {ts : List Token} {paths : List MemberPath} : IsTuple ts paths → IsSlicer ts (.tuple paths)

/-- The restriction of a statement, if it has one. -/
inductive IsRestriction : List Token → Option Slicer → Prop
  | none : IsRestriction [] none
  | some {ts : List Token} {s : Slicer} {t : Token} :
      IsKeyword t "WHERE" → IsSlicer ts s → IsRestriction (t :: ts) (some s)

/-- A whole statement. -/
inductive IsStatement : List Token → SelectStatement → Prop
  | mk {ts us : List Token} {t t' : Token} {clauses : List AxisClause} {cube : String} {slicer : Option Slicer} :
      IsKeyword t "SELECT" → Separated IsClause ts clauses → (clauses.map (·.axis)).Nodup → IsKeyword t' "FROM" →
      IsRestriction us slicer → IsStatement (t :: (ts ++ t' :: .name cube :: us)) ⟨clauses, cube, slicer⟩

/-- A path has a first name. -/
theorem IsPath.exists_cons {ts : List Token} {ns : List String} (h : IsPath ts ns) :
    ∃ n us ms, ts = .name n :: us ∧ ns = n :: ms := by
  cases h with
  | one n => exact ⟨n, [], [], rfl, rfl⟩
  | cons n h => exact ⟨n, _, _, rfl, rfl⟩

/-- Separated items are some items. -/
theorem Separated.ne_nil {α : Type} {item : List Token → α → Prop} {ts : List Token} {as : List α} (h : Separated item ts as) :
    as ≠ [] := by
  cases h with
  | one _ => exact List.cons_ne_nil _ _
  | cons _ _ => exact List.cons_ne_nil _ _

/-- There are no more separated items than tokens, and one more. -/
theorem Separated.length_le {α : Type} {item : List Token → α → Prop} {ts : List Token} {as : List α} (h : Separated item ts as) :
    as.length ≤ ts.length + 1 := by
  induction h with
  | one _ => simp
  | cons _ _ ih =>
    simp only [List.length_cons, List.length_append]
    omega

/-- Separated items take up no more tokens than there are. -/
theorem Separated.bounded {α : Type} {item : List Token → α → Prop} {ts : List Token} {as : List α} (h : Separated item ts as)
    {n : Nat} (hn : ts.length ≤ n) : Separated (fun us a => item us a ∧ us.length ≤ n) ts as := by
  induction h with
  | one hi => exact .one ⟨hi, hn⟩
  | cons hi _ ih =>
    simp only [List.length_cons, List.length_append] at hn
    exact .cons ⟨hi, by omega⟩ (ih (by omega))

end Grammar

end CubeAxes
