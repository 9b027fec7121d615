import CubeAxes.Proofs.Grammar.Deriving
import CubeAxes.Proofs.Grammar.Reading

/-!
# The parser accepts the grammar, and nothing else

A text describes a set, or a statement, just when its tokens are derived as it. The parser is a function, so no tokens are derived in
two ways (`Grammar.IsSet.unique`, `Grammar.IsStatement.unique`). No rule takes an illegal token, so a text that has one describes
nothing.
-/

namespace CubeAxes

/-- A text whose tokens are derived as a set describes this set. -/
theorem SetExpr.ofText_eq_ok {text : String} {s : SetExpr} (h : Grammar.IsSet (Token.ofText text) s) : ofText text = .ok s := by
  unfold ofText
  rw [Parser.wholeSet_eq_ok h]

namespace Grammar

/-! ## Derivations are unique -/

/-- No tokens are derived as two sets. -/
theorem IsSet.unique {ts : List Token} {s s' : SetExpr} (h : IsSet ts s) (h' : IsSet ts s') : s = s' := by
  have heq := (Parser.wholeSet_eq_ok h).symm.trans (Parser.wholeSet_eq_ok h')
  exact (EStateM.Result.ok.inj heq).1

/-- No tokens are derived as two statements. -/
theorem IsStatement.unique {ts : List Token} {s s' : SelectStatement} (h : IsStatement ts s) (h' : IsStatement ts s') : s = s' := by
  have heq := (Parser.wholeStatement_eq_ok h).symm.trans (Parser.wholeStatement_eq_ok h')
  exact (EStateM.Result.ok.inj heq).1

/-! ## No rule takes an illegal token -/

/-- No token is illegal. -/
def Legal (ts : List Token) : Prop := ∀ c, .illegal c ∉ ts

theorem legal_nil : Legal [] := fun _ => List.not_mem_nil

theorem legal_cons {t : Token} {ts : List Token} : Legal (t :: ts) ↔ (∀ c, t ≠ .illegal c) ∧ Legal ts := by
  simp only [Legal, List.mem_cons, not_or, forall_and]
  exact and_congr_left' ⟨fun h c he => h c he.symm, fun h c he => h c he.symm⟩

theorem legal_append {ts us : List Token} : Legal (ts ++ us) ↔ Legal ts ∧ Legal us := by
  simp only [Legal, List.mem_append, not_or, forall_and]

/-- A keyword is a word. -/
theorem IsKeyword.ne_illegal {t : Token} {text : String} (h : IsKeyword t text) (c : Char) : t ≠ .illegal c := by
  rintro rfl
  nomatch h

theorem IsPath.legal {ts : List Token} {ns : List String} (h : IsPath ts ns) : Legal ts := by
  induction h with
  | one n => simp [legal_cons, legal_nil]
  | cons n _ ih => simp [legal_cons, ih]

theorem IsReference.legal {ts : List Token} {r : Reference} (h : IsReference ts r) : Legal ts := by
  cases h with
  | member hpath => exact hpath.legal
  | children hpath ht => simp [legal_append, legal_cons, legal_nil, hpath.legal, ht.ne_illegal]

theorem Separated.legal {α : Type} {item : List Token → α → Prop} (hitem : ∀ us a, item us a → Legal us) {ts : List Token}
    {as : List α} (h : Separated item ts as) : Legal ts := by
  induction h with
  | one hi => exact hitem _ _ hi
  | cons hi _ ih => simp [legal_append, legal_cons, hitem _ _ hi, ih]

theorem IsTuple.legal {ts : List Token} {paths : List MemberPath} (h : IsTuple ts paths) : Legal ts := by
  obtain ⟨hs⟩ := h
  have hin := hs.legal fun _ _ hm => IsReference.legal hm
  simp [legal_append, legal_cons, legal_nil, hin]

theorem IsElement.legal {ts : List Token} {e : SetElement} (h : IsElement ts e) : Legal ts := by
  cases h with
  | reference href => exact href.legal
  | tuple htuple => exact htuple.legal

/-- The induction is on a bound for the number of tokens: the arguments of a function are shorter than the call. -/
theorem IsSet.legal_of_length_le {n : Nat} {ts : List Token} {s : SetExpr} (h : IsSet ts s) (hn : ts.length ≤ n) : Legal ts := by
  induction n generalizing ts s with
  | zero =>
    rw [List.length_eq_zero_iff.1 (Nat.le_zero.1 hn)]
    exact legal_nil
  | succ n ih =>
    cases h with
    | reference href => exact href.legal
    | empty => simp [legal_cons, legal_nil]
    | braced hs => simp [legal_append, legal_cons, legal_nil, hs.legal fun _ _ he => IsElement.legal he]
    | @call t f name ts args _ ht hs =>
      have hlen : ts.length ≤ n := by
        simp only [List.length_cons, List.length_append] at hn
        omega
      have hin := (hs.bounded hlen).legal fun _ _ ha => ih ha.1 ha.2
      simp [legal_append, legal_cons, legal_nil, ht.ne_illegal, hin]

theorem IsSet.legal {ts : List Token} {s : SetExpr} (h : IsSet ts s) : Legal ts := h.legal_of_length_le (Nat.le_refl _)

theorem IsAxis.legal {ts : List Token} {a : AxisName} (h : IsAxis ts a) : Legal ts := by
  cases h with
  | name _ ht => simp [legal_cons, legal_nil, ht.ne_illegal]
  | ordinal _ ht => simp [legal_cons, legal_nil, ht.ne_illegal]

theorem IsClause.legal {ts : List Token} {c : AxisClause} (h : IsClause ts c) : Legal ts := by
  obtain ⟨hs, ht, ha⟩ := h
  simp [legal_append, legal_cons, hs.legal, ht.ne_illegal, ha.legal]

theorem IsRestriction.legal {ts : List Token} {s : Option Slicer} (h : IsRestriction ts s) : Legal ts := by
  cases h with
  | none => exact legal_nil
  | some ht hs =>
    cases hs with
    | member hm => simp [legal_cons, ht.ne_illegal, IsReference.legal hm]
    | tuple htuple => simp [legal_cons, ht.ne_illegal, htuple.legal]

theorem IsStatement.legal {ts : List Token} {s : SelectStatement} (h : IsStatement ts s) : Legal ts := by
  obtain ⟨ht, hcs, -, ht', hrestriction⟩ := h
  have hclauses := hcs.legal fun _ _ hc => IsClause.legal hc
  simp [legal_append, legal_cons, ht.ne_illegal, hclauses, ht'.ne_illegal, hrestriction.legal]

end Grammar

/-! ## Whole texts -/

/-- A text describes a statement, or a set, just when its tokens are derived as it; no tokens are derived in two ways; and a text
with an illegal token describes neither. -/
theorem ofText_eq_ok_iff_derived :
    (∀ text s, SelectStatement.ofText text = .ok s ↔ Grammar.IsStatement (Token.ofText text) s) ∧
    (∀ text s, SetExpr.ofText text = .ok s ↔ Grammar.IsSet (Token.ofText text) s) ∧
    (∀ ts s s', Grammar.IsStatement ts s → Grammar.IsStatement ts s' → s = s') ∧
    (∀ ts s s', Grammar.IsSet ts s → Grammar.IsSet ts s' → s = s') ∧
    ∀ text c, .illegal c ∈ Token.ofText text →
      (∀ s, SelectStatement.ofText text ≠ .ok s) ∧ ∀ s, SetExpr.ofText text ≠ .ok s := by
  refine ⟨fun text s => ?_, fun text s => ?_, fun _ _ _ => Grammar.IsStatement.unique, fun _ _ _ => Grammar.IsSet.unique,
    fun text c hc => ⟨?_, ?_⟩⟩
  · exact ⟨SelectStatement.isStatement_of_ofText, SelectStatement.ofText_eq_ok⟩
  · exact ⟨SetExpr.isSet_of_ofText, SetExpr.ofText_eq_ok⟩
  · exact fun s h => (SelectStatement.isStatement_of_ofText h).legal c hc
  · exact fun s h => (SetExpr.isSet_of_ofText h).legal c hc

/-- A text in mixed case with a function of two sets, children, and an axis given by its ordinal. -/
def mixedCaseText : String := "select crossJOIN({[A].[x]}, [B].[y].CHILDREN) on axis(1), {} on Columns from [C]"

/-- What the text in mixed case describes. -/
def mixedCaseStatement : SelectStatement where
  clauses :=
    [⟨.call .crossJoin [.braced [.reference (.member ⟨["A", "x"]⟩)], .reference (.children ⟨["B", "y"]⟩)], .rows⟩,
      ⟨.braced [], .columns⟩]
  cube := "C"
  slicer := none

/-- The text in mixed case describes its statement and no other. A function of one set that needs two, an ordinal of no axis, and a
character that starts no token are refused. -/
theorem mixed_case_ofText_derived :
    SelectStatement.ofText mixedCaseText = .ok mixedCaseStatement ∧
    (∀ s, Grammar.IsStatement (Token.ofText mixedCaseText) s → s = mixedCaseStatement) ∧
    (∀ s, ¬Grammar.IsStatement (Token.ofText "select CrossJoin({[A].[x]}) on rows from [C]") s) ∧
    (∀ s, ¬Grammar.IsStatement (Token.ofText "select {} on AXIS(5) from [C]") s) ∧
    ∀ s, SelectStatement.ofText "select {} on rows from [C];" ≠ .ok s := by
  obtain ⟨hstatement, -, hunique, -, hillegal⟩ := ofText_eq_ok_iff_derived
  have hx : Grammar.IsReference [.name "A", .dot, .name "x"] (.member ⟨["A", "x"]⟩) := .member (.cons "A" (.one "x"))
  have hy : Grammar.IsReference [.name "B", .dot, .name "y", .dot, .word "CHILDREN"] (.children ⟨["B", "y"]⟩) :=
    .children (.cons "B" (.one "y")) (by decide +kernel)
  have hsets := Grammar.Separated.cons (.braced (.one (.reference hx))) (.one (Grammar.IsSet.reference hy))
  have hcall := Grammar.IsSet.call (t := .word "crossJOIN") (.crossJoin (by decide)) (by decide +kernel) hsets
  have hrows := Grammar.IsClause.mk hcall (t := .word "on") (by decide +kernel)
    (.ordinal (t := .word "axis") .rows (by decide +kernel))
  have hcolumns := Grammar.IsClause.mk .empty (t := .word "on") (by decide +kernel)
    (.name (t := .word "Columns") .columns (by decide +kernel))
  have hderived := @Grammar.IsStatement.mk _ _ (.word "select") (.word "from") _ "C" _ (by decide +kernel)
    (.cons hrows (.one hcolumns)) (by decide) (by decide +kernel) .none
  have htokens : Token.ofText mixedCaseText =
      [.word "select", .word "crossJOIN", .leftParen, .leftBrace, .name "A", .dot, .name "x", .rightBrace, .comma, .name "B", .dot,
        .name "y", .dot, .word "CHILDREN", .rightParen, .word "on", .word "axis", .leftParen, .number 1, .rightParen, .comma,
        .leftBrace, .rightBrace, .word "on", .word "Columns", .word "from", .name "C"] := by
    decide +kernel
  simp only [List.cons_append, List.nil_append, ← htokens] at hderived
  have hrefused : ∀ text, (SelectStatement.ofText text).isOk = false → ∀ s, ¬Grammar.IsStatement (Token.ofText text) s := by
    intro text h s hs
    rw [(hstatement text s).2 hs] at h
    nomatch h
  have hsemicolon : .illegal ';' ∈ Token.ofText "select {} on rows from [C];" := by decide +kernel
  exact ⟨(hstatement _ _).2 hderived, fun s hs => hunique _ s _ hs hderived, hrefused _ (by decide +kernel),
    hrefused _ (by decide +kernel), (hillegal _ ';' hsemicolon).1⟩

end CubeAxes
