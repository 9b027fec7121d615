import Mathlib.Data.List.Perm.Subperm
import CubeAxes.Proofs.Grammar.Derivations

/-!
# The parser reads what the grammar derives

From tokens that the grammar derives a parser takes just these and gives what they stand for, so long as the next token does not go
on with them: a dot goes on with a reference, and a comma with a list of items (`Parser.set_eq_ok`). So a statement that the grammar
derives is accepted (`SelectStatement.ofText_eq_ok`). The parser's bounds on nesting and on the number of items are never reached,
since what is nested in a function, or stands before a comma, is shorter.
-/

namespace CubeAxes

namespace Parser

open Grammar

variable {α β : Type}

/-! ## Steps -/

/-- After an answer the parser goes on with it, and with the tokens that are left. -/
theorem bind_of_eq_ok {p : Parser α} {f : α → Parser β} {ts us : List Token} {a : α} (h : p ts = .ok a us) :
    (p >>= f) ts = f a us := by
  change EStateM.bind p f ts = f a us
  unfold EStateM.bind
  rw [h]

/-- Looking at the next token takes nothing. -/
theorem next_bind (f : Option Token → Parser β) (ts : List Token) : (next >>= f) ts = f ts.head? ts := bind_of_eq_ok rfl

/-- Taking a token leaves those after it. -/
theorem advance_bind (f : Unit → Parser β) (t : Token) (ts : List Token) : (advance >>= f) (t :: ts) = f () ts := bind_of_eq_ok rfl

/-- The token asked for is taken. -/
theorem token_bind (t : Token) (f : Unit → Parser β) (ts : List Token) : (token t >>= f) (t :: ts) = f () ts := by
  refine bind_of_eq_ok ?_
  unfold token
  rw [next_bind, List.head?_cons, if_pos rfl]
  rfl

/-- The keyword looked for is there, in any case, and is not taken. -/
theorem atKeyword_eq_ok {t : Token} {text : String} (h : IsKeyword t text) (ts : List Token) :
    atKeyword text (t :: ts) = .ok true (t :: ts) := by
  unfold atKeyword
  rw [next_bind, List.head?_cons, Option.any_some, isKeyword_iff.1 h]
  rfl

/-- The keyword asked for is taken. -/
theorem keyword_bind {t : Token} {text : String} (h : IsKeyword t text) (f : Unit → Parser β) (ts : List Token) :
    (keyword text >>= f) (t :: ts) = f () ts := by
  refine bind_of_eq_ok ?_
  unfold keyword
  rw [bind_of_eq_ok (atKeyword_eq_ok h ts), if_pos rfl]
  rfl

/-! ## References -/

/-- The names of a path are taken one after the other. -/
theorem exists_segmentsFrom_eq {ts : List Token} {ns : List String} (h : IsPath ts ns) (before : List String) (rest : List Token) :
    ∃ n us, ts = .name n :: us ∧ segmentsFrom (before ++ [n]) (us ++ rest) = segmentsFrom (before ++ ns) rest := by
  induction h generalizing before with
  | one n => exact ⟨n, [], rfl, rfl⟩
  | @cons ts ns n h ih =>
    obtain ⟨n', us, rfl, heq⟩ := ih (before ++ [n])
    refine ⟨n, .dot :: .name n' :: us, rfl, ?_⟩
    rw [List.cons_append, List.cons_append, segmentsFrom, heq, List.append_assoc]
    rfl

/-- A reference ends where no dot follows. -/
theorem segmentsFrom_of_head?_ne {rest : List Token} (h : rest.head? ≠ some .dot) (ns : List String) :
    segmentsFrom ns rest = .ok (.member ⟨ns⟩) rest := by
  cases rest with
  | nil => rfl
  | cons t ts =>
    have ht : t ≠ .dot := fun e => h (congrArg some e)
    rw [segmentsFrom]
    · rintro _ _ he
      exact ht (List.cons.inj he).1
    · rintro _ _ he
      exact ht (List.cons.inj he).1
    · intro he
      exact ht (List.cons.inj he).1

/-- The word for children ends a reference. -/
theorem segmentsFrom_children {t : Token} (h : IsKeyword t "Children") (ns : List String) (rest : List Token) :
    segmentsFrom ns (.dot :: t :: rest) = .ok (.children ⟨ns⟩) rest := by
  have ht := isKeyword_iff.1 h
  cases h with
  | mk _ =>
    rw [segmentsFrom, if_pos ht]
    exact fun _ he => nomatch he

/-- A reference starts with a name. -/
theorem reference_name (n : String) (ts : List Token) : reference (.name n :: ts) = segmentsFrom [n] ts := rfl

theorem reference_eq_ok {ts : List Token} {r : Reference} (h : IsReference ts r) {rest : List Token}
    (hr : rest.head? ≠ some .dot) : reference (ts ++ rest) = .ok r rest := by
  cases h with
  | member hpath =>
    obtain ⟨n, us, rfl, heq⟩ := exists_segmentsFrom_eq hpath [] rest
    rw [List.cons_append, reference_name]
    exact heq.trans (segmentsFrom_of_head?_ne hr _)
  | @children _ _ t hpath ht =>
    obtain ⟨n, us, rfl, heq⟩ := exists_segmentsFrom_eq hpath [] (.dot :: t :: rest)
    rw [List.append_assoc, List.cons_append, reference_name]
    exact heq.trans (segmentsFrom_children ht _ rest)

theorem member_eq_ok {ts : List Token} {p : MemberPath} (h : IsMember ts p) {rest : List Token} (hr : rest.head? ≠ some .dot) :
    member (ts ++ rest) = .ok p rest := by
  unfold member
  rw [bind_of_eq_ok (reference_eq_ok h hr)]
  rfl

/-! ## Items -/

/-- Items of a kind that a parser reads are read, up to the bound. -/
theorem itemsUpTo_eq_ok {item : Parser α} {R : List Token → α → Prop}
    (hitem : ∀ ts a, R ts a → ∀ rest : List Token, rest.head? ≠ some .dot → item (ts ++ rest) = .ok a rest) {ts : List Token}
    {as : List α} (h : Separated R ts as) {n : Nat} (hn : as.length ≤ n + 1) {rest : List Token} (hdot : rest.head? ≠ some .dot)
    (hcomma : rest.head? ≠ some .comma) : itemsUpTo item n (ts ++ rest) = .ok as rest := by
  induction h generalizing n with
  | one hi =>
    cases n with
    | zero =>
      unfold itemsUpTo
      rw [bind_of_eq_ok (hitem _ _ hi rest hdot)]
      rfl
    | succ n =>
      unfold itemsUpTo
      rw [bind_of_eq_ok (hitem _ _ hi rest hdot), next_bind, if_neg hcomma]
      rfl
  | @cons ts us a as hi hs ih =>
    cases n with
    | zero =>
      have hne := List.length_pos_iff.2 hs.ne_nil
      rw [List.length_cons] at hn
      omega
    | succ n =>
      unfold itemsUpTo
      rw [List.append_assoc, bind_of_eq_ok (hitem _ _ hi _ (by simp)), List.cons_append, next_bind, List.head?_cons, if_pos rfl,
        advance_bind, bind_of_eq_ok (ih (Nat.le_of_succ_le_succ hn))]
      rfl

/-- Items of a kind that a parser reads are read. -/
theorem items_eq_ok {item : Parser α} {R : List Token → α → Prop}
    (hitem : ∀ ts a, R ts a → ∀ rest : List Token, rest.head? ≠ some .dot → item (ts ++ rest) = .ok a rest) {ts : List Token}
    {as : List α} (h : Separated R ts as) {rest : List Token} (hdot : rest.head? ≠ some .dot)
    (hcomma : rest.head? ≠ some .comma) : items item (ts ++ rest) = .ok as rest := by
  refine itemsUpTo_eq_ok hitem h ?_ hdot hcomma
  have hlen := h.length_le
  rw [List.length_append]
  omega

/-! ## Sets -/

theorem tuple_eq_ok {ts : List Token} {paths : List MemberPath} (h : IsTuple ts paths) (rest : List Token) :
    tuple (ts ++ rest) = .ok paths rest := by
  obtain ⟨hs⟩ := h
  unfold tuple
  rw [List.cons_append, List.append_assoc, token_bind,
    bind_of_eq_ok (items_eq_ok (fun _ _ hm _ => member_eq_ok hm) hs (by simp) (by simp)), List.cons_append, token_bind]
  rfl

/-- A reference does not start with a parenthesis or a brace. -/
theorem exists_head_of_isReference {ts : List Token} {r : Reference} (h : IsReference ts r) :
    ∃ n us, ts = .name n :: us := by
  cases h with
  | member hpath =>
    obtain ⟨n, us, -, rfl, -⟩ := hpath.exists_cons
    exact ⟨n, us, rfl⟩
  | children hpath _ =>
    obtain ⟨n, us, -, rfl, -⟩ := hpath.exists_cons
    exact ⟨n, us ++ _, rfl⟩

theorem element_eq_ok {ts : List Token} {e : SetElement} (h : IsElement ts e) {rest : List Token} (hr : rest.head? ≠ some .dot) :
    element (ts ++ rest) = .ok e rest := by
  unfold element
  cases h with
  | reference href =>
    have hread := reference_eq_ok href hr
    obtain ⟨n, us, rfl⟩ := exists_head_of_isReference href
    rw [List.cons_append] at hread ⊢
    rw [next_bind, List.head?_cons, if_neg (by simp), bind_of_eq_ok hread]
    rfl
  | tuple htuple =>
    have hread := tuple_eq_ok htuple rest
    obtain ⟨-⟩ := htuple
    rw [List.cons_append] at hread ⊢
    rw [next_bind, List.head?_cons, if_pos rfl, bind_of_eq_ok hread]
    rfl

/-- What stands between braces does not start with a closing brace. -/
theorem head?_ne_of_separated_isElement {ts : List Token} {elements : List SetElement} (h : Separated IsElement ts elements)
    (rest : List Token) : (ts ++ rest).head? ≠ some .rightBrace := by
  have hone : ∀ us e vs, IsElement us e → (us ++ vs).head? ≠ some .rightBrace := by
    intro us e vs he
    cases he with
    | reference href =>
      obtain ⟨n, us, rfl⟩ := exists_head_of_isReference href
      exact fun h => nomatch h
    | tuple htuple =>
      obtain ⟨-⟩ := htuple
      exact fun h => nomatch h
  cases h with
  | one he => exact hone _ _ rest he
  | cons he _ =>
    rw [List.append_assoc]
    exact hone _ _ _ he

theorem braced_eq_ok {ts : List Token} {elements : List SetElement} (h : Separated IsElement ts elements) (rest : List Token) :
    braced (.leftBrace :: (ts ++ .rightBrace :: rest)) = .ok (.braced elements) rest := by
  unfold braced
  rw [token_bind, next_bind, if_neg (head?_ne_of_separated_isElement h _),
    bind_of_eq_ok (items_eq_ok (fun _ _ he _ => element_eq_ok he) h (by simp) (by simp)), token_bind]
  rfl

theorem call_eq_ok {argument : Parser SetExpr} {R : List Token → SetExpr → Prop}
    (hargument : ∀ ts a, R ts a → ∀ rest : List Token, rest.head? ≠ some .dot → argument (ts ++ rest) = .ok a rest) {w : String}
    {f : SetFunction} {ts : List Token} {args : List SetExpr} (hf : SetFunction.ofName? w = some f) (h : Separated R ts args)
    (hn : f.takes args.length = true) (rest : List Token) :
    call argument w (.word w :: .leftParen :: (ts ++ .rightParen :: rest)) = .ok (.call f args) rest := by
  unfold call
  rw [hf]
  simp only
  rw [advance_bind, token_bind, bind_of_eq_ok (items_eq_ok hargument h (by simp) (by simp)), token_bind, if_pos hn]
  rfl

/-- A set is read by every bound that is not less than the number of its tokens. -/
theorem setUpTo_eq_ok {n : Nat} {ts : List Token} {s : SetExpr} (h : IsSet ts s) (hn : ts.length ≤ n) {rest : List Token}
    (hr : rest.head? ≠ some .dot) : setUpTo n (ts ++ rest) = .ok s rest := by
  induction n generalizing ts s rest with
  | zero =>
    obtain rfl := List.length_eq_zero_iff.1 (Nat.le_zero.1 hn)
    cases h with
    | reference href =>
      obtain ⟨n, us, he⟩ := exists_head_of_isReference href
      nomatch he
  | succ n ih =>
    unfold setUpTo
    cases h with
    | reference href =>
      have hread := reference_eq_ok href hr
      obtain ⟨m, us, rfl⟩ := exists_head_of_isReference href
      rw [List.cons_append] at hread ⊢
      rw [next_bind, List.head?_cons]
      simp only
      rw [bind_of_eq_ok hread]
      rfl
    | empty => rfl
    | braced hs =>
      rw [List.cons_append, List.append_assoc, next_bind, List.head?_cons]
      exact braced_eq_ok hs rest
    | @call t f name ts args hfunction hword hs =>
      have hlen : ts.length ≤ n := by
        simp only [List.length_cons, List.length_append] at hn
        omega
      obtain ⟨rfl, htakes⟩ := isFunction_iff.1 hfunction
      obtain ⟨w, rfl, -⟩ := hword.exists_eq
      have hf := SetFunction.ofName?_eq_some_iff.2 hword
      rw [List.cons_append, List.cons_append, List.append_assoc, next_bind, List.head?_cons]
      exact call_eq_ok (fun us a ha rest hrest => ih ha.1 ha.2 hrest) hf (hs.bounded hlen) htakes rest

/-- What the grammar derives as a set is read as this set. -/
theorem set_eq_ok {ts : List Token} {s : SetExpr} (h : IsSet ts s) {rest : List Token} (hr : rest.head? ≠ some .dot) :
    set (ts ++ rest) = .ok s rest := by
  refine setUpTo_eq_ok h ?_ hr
  rw [List.length_append]
  omega

/-- What the grammar derives as a set is read as this set, with nothing left. -/
theorem wholeSet_eq_ok {ts : List Token} {s : SetExpr} (h : IsSet ts s) : wholeSet ts = .ok s [] := by
  have hnil : ([] : List Token).head? ≠ some .dot := fun he => nomatch he
  have hread := set_eq_ok h hnil
  rw [List.append_nil] at hread
  cases ts with
  | nil => nomatch hread
  | cons t ts =>
    unfold wholeSet
    rw [next_bind, List.head?_cons]
    simp only
    rw [bind_of_eq_ok hread]
    rfl

/-! ## Statements -/

theorem axis_eq_ok {ts : List Token} {a : AxisName} (h : IsAxis ts a) (rest : List Token) : axis (ts ++ rest) = .ok a rest := by
  unfold axis
  cases h with
  | name hnamed hword =>
    obtain ⟨rfl, -⟩ := isNamed_iff.1 hnamed
    obtain ⟨w, rfl, -⟩ := hword.exists_eq
    rw [List.cons_append, next_bind, List.head?_cons]
    simp only
    rw [advance_bind, AxisName.sameWord_eq_false_of_isKeyword hword, if_neg Bool.false_ne_true,
      AxisName.ofName?_eq_some_iff.2 hword]
    rfl
  | ordinal hnamed hword =>
    obtain ⟨-, hordinal⟩ := isNamed_iff.1 hnamed
    obtain ⟨w, rfl, haxis⟩ := hword.exists_eq
    rw [List.cons_append, next_bind, List.head?_cons]
    simp only
    rw [advance_bind, haxis, if_pos rfl]
    unfold ordinal
    rw [List.cons_append, token_bind, List.cons_append, next_bind, List.head?_cons]
    simp only
    rw [advance_bind, List.cons_append, token_bind, hordinal]
    rfl

theorem clause_eq_ok {ts : List Token} {c : AxisClause} (h : IsClause ts c) {used : List AxisName} (hused : c.axis ∉ used)
    (rest : List Token) : clause used (ts ++ rest) = .ok c rest := by
  obtain ⟨hs, ht, ha⟩ := h
  have hne : ∀ {t : Token} {us : List Token}, IsKeyword t "ON" → (t :: us).head? ≠ some .dot := by
    rintro t us h he
    obtain rfl := Option.some.inj he
    nomatch h
  unfold clause
  rw [List.append_assoc, List.cons_append, bind_of_eq_ok (set_eq_ok hs (hne ht)), keyword_bind ht, bind_of_eq_ok (axis_eq_ok ha rest),
    if_neg hused]
  rfl

/-- Clauses for different axes, none of which is used already, are read. -/
theorem clausesUpTo_eq_ok {ts : List Token} {cs : List AxisClause} (h : Separated IsClause ts cs) {n : Nat} (hn : cs.length ≤ n + 1)
    {used : List AxisName} (hused : ∀ c ∈ cs, c.axis ∉ used) (hnodup : (cs.map (·.axis)).Nodup) {rest : List Token}
    (hr : rest.head? ≠ some .comma) : clausesUpTo n used (ts ++ rest) = .ok cs rest := by
  induction h generalizing n used with
  | one hc =>
    have hfirst := clause_eq_ok hc (hused _ List.mem_cons_self) rest
    cases n with
    | zero =>
      unfold clausesUpTo
      rw [bind_of_eq_ok hfirst]
      rfl
    | succ n =>
      unfold clausesUpTo
      rw [bind_of_eq_ok hfirst, next_bind, if_neg hr]
      rfl
  | @cons ts us c cs hc hs ih =>
    cases n with
    | zero =>
      have hpos := List.length_pos_iff.2 hs.ne_nil
      rw [List.length_cons] at hn
      omega
    | succ n =>
      rw [List.map_cons, List.nodup_cons] at hnodup
      have hused' : ∀ d ∈ cs, d.axis ∉ c.axis :: used := by
        intro d hd hmem
        rcases List.mem_cons.1 hmem with he | hmem
        · exact hnodup.1 (List.mem_map.2 ⟨d, hd, he⟩)
        · exact hused d (List.mem_cons_of_mem c hd) hmem
      have hfirst := clause_eq_ok hc (hused c List.mem_cons_self) (.comma :: us ++ rest)
      unfold clausesUpTo
      rw [List.append_assoc, bind_of_eq_ok hfirst, List.cons_append, next_bind, List.head?_cons, if_pos rfl, advance_bind,
        bind_of_eq_ok (ih (Nat.le_of_succ_le_succ hn) hused' hnodup.2)]
      rfl

/-- Clauses for different axes are read: there are no more of them than axes. -/
theorem clauses_eq_ok {ts : List Token} {cs : List AxisClause} (h : Separated IsClause ts cs) (hnodup : (cs.map (·.axis)).Nodup)
    {rest : List Token} (hr : rest.head? ≠ some .comma) : clauses (ts ++ rest) = .ok cs rest := by
  have hall : cs.map (·.axis) ⊆ AxisName.all := by
    intro a _
    cases a <;> decide
  have hlen := (List.subperm_of_subset hnodup hall).length_le
  rw [List.length_map] at hlen
  refine clausesUpTo_eq_ok h (Nat.le_succ_of_le hlen) (fun c _ => List.not_mem_nil) hnodup hr

theorem slicer_eq_ok {ts : List Token} {s : Slicer} (h : IsSlicer ts s) : slicer ts = .ok s [] := by
  unfold slicer
  cases h with
  | member hm =>
    have hnil : ([] : List Token).head? ≠ some .dot := fun he => nomatch he
    have hread := member_eq_ok hm hnil
    obtain ⟨n, us, rfl⟩ := exists_head_of_isReference hm
    rw [List.append_nil] at hread
    rw [next_bind, List.head?_cons, if_neg (by simp), bind_of_eq_ok hread]
    rfl
  | tuple htuple =>
    have hread := tuple_eq_ok htuple []
    obtain ⟨-⟩ := htuple
    rw [List.append_nil] at hread
    rw [next_bind, List.head?_cons, if_pos rfl, bind_of_eq_ok hread]
    rfl

theorem slicer?_eq_ok {ts : List Token} {s : Option Slicer} (h : IsRestriction ts s) : slicer? ts = .ok s [] := by
  unfold slicer?
  cases h with
  | none => rfl
  | @some ts s t ht hs =>
    rw [bind_of_eq_ok (atKeyword_eq_ok ht ts), if_pos rfl, advance_bind, bind_of_eq_ok (slicer_eq_ok hs)]
    rfl

/-- What the grammar derives as a statement is read as this statement. -/
theorem wholeStatement_eq_ok {ts : List Token} {s : SelectStatement} (h : IsStatement ts s) : wholeStatement ts = .ok s [] := by
  cases h with
  | @mk ts us t t' cs cube slicer ht hcs hnodup ht' hslicer =>
    have hne : ∀ us : List Token, (t' :: us).head? ≠ some .comma := by
      rintro us he
      obtain rfl := Option.some.inj he
      nomatch ht'
    have hcube : cubeName (.name cube :: us) = .ok cube us := rfl
    unfold wholeStatement
    rw [keyword_bind ht, bind_of_eq_ok (clauses_eq_ok hcs hnodup (hne _)), keyword_bind ht', bind_of_eq_ok hcube,
      bind_of_eq_ok (slicer?_eq_ok hslicer)]
    rfl

end Parser

/-- A text whose tokens are derived as a statement describes this statement. -/
theorem SelectStatement.ofText_eq_ok {text : String} {s : SelectStatement} (h : Grammar.IsStatement (Token.ofText text) s) :
    ofText text = .ok s := by
  unfold ofText
  rw [Parser.wholeStatement_eq_ok h]

end CubeAxes
