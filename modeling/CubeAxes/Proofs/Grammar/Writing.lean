import CubeAxes.TupleSet.Written
import CubeAxes.Proofs.Grammar.Derivations
import CubeAxes.Proofs.Token.Spelling

/-!
# What is written is derived

The texts that the library writes spell tokens of which the grammar derives what they were written from: paths, sets in braces, calls
of functions in either case, slicers, and whole statements (`Grammar.exists_isStatement`). A name can hold anything, as it is written
in brackets; a function, a keyword or an axis is a word.
-/

namespace CubeAxes

open Token

namespace Grammar

/-! ## Items between commas -/

theorem starts_comma : Starts ", " := ⟨',', [' '], rfl, rfl, by decide⟩

theorem starts_rightParen : Starts ")" := ⟨')', [], rfl, rfl, by decide⟩

theorem starts_rightBrace : Starts "\x7d" := ⟨'\x7d', [], rfl, rfl, by decide⟩

theorem starts_dot : Starts "." := ⟨'.', [], rfl, rfl, by decide⟩

theorem starts_blank : Starts " " := ⟨' ', [], rfl, rfl, by decide⟩

/-- Where each of several things has a text that spells an item, all their texts, separated by commas, spell the items. -/
theorem exists_separated {α β : Type} {item : List Token → β → Prop} {text : α → String} {value : α → β} {as : List α}
    (hne : as ≠ []) (h : ∀ a ∈ as, ∃ ts, Spells (text a) ts ∧ item ts (value a)) :
    ∃ ts, Spells (String.intercalate ", " (as.map text)) ts ∧ Separated item ts (as.map value) := by
  induction as with
  | nil => exact absurd rfl hne
  | cons a as ih =>
    obtain ⟨ts, hts, ha⟩ := h a List.mem_cons_self
    cases as with
    | nil =>
      refine ⟨ts, ?_, .one ha⟩
      rw [List.map_singleton, String.intercalate_singleton]
      exact hts
    | cons a' as =>
      obtain ⟨us, hus, has⟩ := ih (List.cons_ne_nil a' as) fun c hc => h c (List.mem_cons_of_mem a hc)
      refine ⟨ts ++ .comma :: us, ?_, .cons ha has⟩
      have hfront := hts.append starts_comma spellsClosed_comma
      rw [List.map_cons, String.intercalate_cons_of_ne_nil (by simp), List.append_cons]
      exact hfront.append_spells hus

/-! ## Paths -/

/-- The text of a path that has a name spells the path. -/
theorem exists_isPath {segments : List String} (h : segments ≠ []) :
    ∃ ts, Spells (MemberPath.text ⟨segments⟩) ts ∧ IsPath ts segments := by
  unfold MemberPath.text
  induction segments with
  | nil => exact absurd rfl h
  | cons n ns ih =>
    cases ns with
    | nil =>
      refine ⟨[.name n], ?_, .one n⟩
      rw [List.map_singleton, String.intercalate_singleton]
      exact spells_bracketed n
    | cons n' ns =>
      obtain ⟨ts, hts, hp⟩ := ih (List.cons_ne_nil n' ns)
      refine ⟨.name n :: .dot :: ts, ?_, .cons n hp⟩
      have hfront := (spells_bracketed n).append starts_dot spellsClosed_dot
      rw [List.map_cons, String.intercalate_cons_of_ne_nil (by simp)]
      exact hfront.append_spells hts

/-- A member that is derived has a name. -/
theorem IsMember.segments_ne_nil {ts : List Token} {p : MemberPath} (h : IsMember ts p) : p.segments ≠ [] := by
  cases h with
  | member hp =>
    obtain ⟨n, us, ms, -, rfl⟩ := hp.exists_cons
    exact List.cons_ne_nil n ms

/-- Of items that are derived each is. -/
theorem Separated.forall {α : Type} {item : List Token → α → Prop} {ts : List Token} {as : List α} (h : Separated item ts as) :
    ∀ a ∈ as, ∃ us, item us a := by
  induction h with
  | one hi => exact List.forall_mem_cons.2 ⟨⟨_, hi⟩, fun a ha => absurd ha List.not_mem_nil⟩
  | cons hi _ ih => exact List.forall_mem_cons.2 ⟨⟨_, hi⟩, ih⟩

/-- A list of paths that have names spells members. -/
theorem exists_separated_isMember {paths : List MemberPath} (hne : paths ≠ []) (h : ∀ p ∈ paths, p.segments ≠ []) :
    ∃ ts, Spells (MemberPath.listText paths) ts ∧ Separated IsMember ts paths := by
  have hall : ∀ p ∈ paths, ∃ ts, Spells p.text ts ∧ IsMember ts (id p) := by
    intro p hp
    obtain ⟨ts, hts, hpath⟩ := exists_isPath (h p hp)
    exact ⟨ts, hts, .member hpath⟩
  obtain ⟨ts, hts, hm⟩ := exists_separated hne hall
  rw [List.map_id] at hm
  exact ⟨ts, hts, hm⟩

/-- Paths in parentheses spell a tuple. -/
theorem exists_isTuple {paths : List MemberPath} (hne : paths ≠ []) (h : ∀ p ∈ paths, p.segments ≠ []) :
    ∃ ts, SpellsClosed ("(" ++ MemberPath.listText paths ++ ")") ts ∧ IsTuple ts paths := by
  obtain ⟨ts, hts, hm⟩ := exists_separated_isMember hne h
  refine ⟨.leftParen :: (ts ++ [.rightParen]), ?_, .mk hm⟩
  have hclosed := hts.append starts_rightParen spellsClosed_rightParen
  rw [String.append_assoc]
  exact spellsClosed_leftParen.append hclosed

/-- A slicer that is derived is derived of the tokens of its text. -/
theorem IsSlicer.exists_spells {ts : List Token} {s : Slicer} (h : IsSlicer ts s) : ∃ us, Spells s.text us ∧ IsSlicer us s := by
  cases h with
  | @member p hm =>
    obtain ⟨us, hus, hp⟩ := exists_isPath hm.segments_ne_nil
    exact ⟨us, hus, .member (.member hp)⟩
  | @tuple paths ht =>
    obtain ⟨hs⟩ := ht
    have hall : ∀ p ∈ paths, p.segments ≠ [] := by
      intro p hp
      obtain ⟨us, hm⟩ := hs.forall p hp
      exact hm.segments_ne_nil
    obtain ⟨us, hus, ht⟩ := exists_isTuple hs.ne_nil hall
    exact ⟨us, hus.spells, .tuple ht⟩

/-! ## Sets -/

/-- A text spells a set, whatever stands behind it. -/
def Writes (s : String) (e : SetExpr) : Prop := ∃ ts, SpellsClosed s ts ∧ IsSet ts e

/-- Braces around a text that spells elements spell a set. -/
theorem writes_braced {s : String} {ts : List Token} {elements : List SetElement} (h : Spells s ts)
    (he : Separated IsElement ts elements) : Writes ("\x7b" ++ s ++ "\x7d") (.braced elements) := by
  refine ⟨.leftBrace :: (ts ++ [.rightBrace]), ?_, .braced he⟩
  have hclosed := h.append starts_rightBrace spellsClosed_rightBrace
  rw [String.append_assoc]
  exact spellsClosed_leftBrace.append hclosed

/-- Paths in braces, of which there may be none, spell the set of their members. -/
theorem writes_members {paths : List MemberPath} (h : ∀ p ∈ paths, p.segments ≠ []) :
    Writes ("\x7b" ++ MemberPath.listText paths ++ "\x7d") (.braced (paths.map fun p => .reference (.member p))) := by
  by_cases hne : paths = []
  · subst hne
    exact ⟨_, spellsClosed_leftBrace.append spellsClosed_rightBrace, .empty⟩
  · have hall : ∀ p ∈ paths, ∃ ts, Spells p.text ts ∧ IsElement ts (.reference (.member p)) := by
      intro p hp
      obtain ⟨ts, hts, hpath⟩ := exists_isPath (h p hp)
      exact ⟨ts, hts, .reference (.member hpath)⟩
    obtain ⟨ts, hts, he⟩ := exists_separated hne hall
    exact writes_braced hts he

/-- A tuple in braces spells the set of the tuple. -/
theorem writes_tuple {paths : List MemberPath} (hne : paths ≠ []) (h : ∀ p ∈ paths, p.segments ≠ []) :
    Writes ("\x7b(" ++ MemberPath.listText paths ++ ")\x7d") (.braced [.tuple paths]) := by
  obtain ⟨ts, hts, ht⟩ := exists_isTuple hne h
  have hbraced := writes_braced hts.spells (.one (.tuple ht))
  have hopen : "\x7b(" = "\x7b" ++ "(" := rfl
  have hclose : ")\x7d" = ")" ++ "\x7d" := rfl
  rw [hopen, hclose]
  simp only [String.append_assoc] at hbraced ⊢
  exact hbraced

/-- A function is written as a word that is its name. -/
theorem spec_of_written (f : SetFunction) (o : RenderOptions) :
    isWord (f.written o) = true ∧ IsKeyword (.word (f.written o)) f.name := by
  obtain ⟨c⟩ := o
  cases f <;> cases c <;> decide +kernel

/-- A call with texts that spell its arguments spells the call. -/
theorem writes_call (f : SetFunction) (o : RenderOptions) {args : List (String × SetExpr)} (h : ∀ a ∈ args, Writes a.1 a.2)
    (hf : f.takes args.length = true) : Writes (f.callText o (args.map (·.1))) (.call f (args.map (·.2))) := by
  obtain ⟨hword, hname⟩ := spec_of_written f o
  have hne : args ≠ [] := by
    rintro rfl
    cases f <;> nomatch hf
  have hall : ∀ a ∈ args, ∃ ts, Spells a.1 ts ∧ IsSet ts a.2 := by
    intro a ha
    obtain ⟨ts, hts, hset⟩ := h a ha
    exact ⟨ts, hts.spells, hset⟩
  obtain ⟨ts, hts, hsets⟩ := exists_separated hne hall
  have hfunction : IsFunction f f.name (args.map (·.2)).length := isFunction_iff.2 ⟨rfl, by rwa [List.length_map]⟩
  refine ⟨.word (f.written o) :: .leftParen :: (ts ++ [.rightParen]), ?_, .call hfunction hname hsets⟩
  have hopen := (spells_word hword).append ⟨'(', [], rfl, rfl, by decide⟩ spellsClosed_leftParen
  have hclose := hts.append starts_rightParen spellsClosed_rightParen
  have hcall := hopen.append hclose
  rw [← String.append_assoc] at hcall
  exact hcall

/-- A call of two sets. -/
theorem writes_call_pair (f : SetFunction) (o : RenderOptions) {s s' : String} {e e' : SetExpr} (h : Writes s e)
    (h' : Writes s' e') (hf : f.takes 2 = true) : Writes (f.callText o [s, s']) (.call f [e, e']) := by
  have hargs : ∀ a ∈ [(s, e), (s', e')], Writes a.1 a.2 := by simp [h, h']
  have hcall := writes_call f o hargs hf
  rw [List.map_cons, List.map_singleton, List.map_cons, List.map_singleton] at hcall
  exact hcall

/-! ## Statements -/

/-- A word between blanks spells the word, whatever stands behind it. -/
theorem spellsClosed_word {w : String} (h : isWord w = true) : SpellsClosed (" " ++ w ++ " ") [.word w] := by
  have hword := (spells_word h).append starts_blank spellsClosed_blank
  rw [String.append_assoc]
  exact spellsClosed_blank.append hword

/-- The name of an axis is a word, and that of the axis only. -/
theorem spec_of_axisText (a : AxisName) : isWord a.text = true ∧ IsAxis [.word a.text] a := by
  have hspec : isWord a.text = true ∧ IsKeyword (.word a.text) a.text := by
    cases a <;> decide +kernel
  obtain ⟨n, hn⟩ := exists_isNamed a
  exact ⟨hspec.1, .name hn hspec.2⟩

/-- A set and the name of an axis spell a clause. -/
theorem exists_isClause {s : String} {e : SetExpr} (h : Writes s e) (a : AxisName) :
    ∃ ts, Spells (s ++ " ON " ++ a.text) ts ∧ IsClause ts ⟨e, a⟩ := by
  obtain ⟨ts, hts, hset⟩ := h
  obtain ⟨hword, haxis⟩ := spec_of_axisText a
  refine ⟨ts ++ .word "ON" :: [.word a.text], ?_, .mk hset (by decide) haxis⟩
  have hon : SpellsClosed " ON " [.word "ON"] := spellsClosed_word (w := "ON") (by decide)
  have hfront := hts.append hon
  rw [List.append_cons]
  exact hfront.append_spells (spells_word hword)

/-- A cube in brackets and a slicer that is derived spell the cube and the restriction. -/
theorem exists_isRestriction (cube : String) {slicer : Option Slicer} (h : ∀ s, slicer = some s → ∃ ts, IsSlicer ts s) :
    ∃ ts, Spells (bracketed cube ++ restrictionText slicer) (.name cube :: ts) ∧ IsRestriction ts slicer := by
  cases slicer with
  | none =>
    refine ⟨[], ?_, .none⟩
    rw [restrictionText, String.append_empty]
    exact spells_bracketed cube
  | some s =>
    obtain ⟨us, hs⟩ := h s rfl
    obtain ⟨ts, hts, hslicer⟩ := hs.exists_spells
    refine ⟨.word "WHERE" :: ts, ?_, .some (by decide) hslicer⟩
    have hwhere : SpellsClosed " WHERE " [.word "WHERE"] := spellsClosed_word (w := "WHERE") (by decide)
    have hstarts : Starts " WHERE " := ⟨' ', _, rfl, rfl, by decide⟩
    have hfront := (spells_bracketed cube).append hstarts hwhere
    rw [restrictionText, ← String.append_assoc]
    exact hfront.append_spells hts

/-- Clauses, a cube and a slicer spell the statement. The clauses are those of several things, each with its text and its axis. -/
theorem exists_isStatement {α : Type} {as : List α} {f : α → String} {g : α → AxisClause} (hne : as ≠ [])
    (h : ∀ a ∈ as, Writes (f a) (g a).set) (hnodup : (as.map fun a => (g a).axis).Nodup) (cube : String)
    {slicer : Option Slicer} (hs : ∀ s, slicer = some s → ∃ ts, IsSlicer ts s) :
    IsStatement (Token.ofText ("SELECT " ++ String.intercalate ", " (as.map fun a => f a ++ " ON " ++ (g a).axis.text) ++
      " FROM " ++ bracketed cube ++ restrictionText slicer)) ⟨as.map g, cube, slicer⟩ := by
  obtain ⟨ts, hts, hclauses⟩ := exists_separated hne fun a ha => exists_isClause (h a ha) (g a).axis
  obtain ⟨us, hus, hrestriction⟩ := exists_isRestriction cube hs
  have hselect : SpellsClosed "SELECT " [.word "SELECT"] :=
    (spells_word (w := "SELECT") (by decide)).append starts_blank spellsClosed_blank
  have hfrom : SpellsClosed " FROM " [.word "FROM"] := spellsClosed_word (w := "FROM") (by decide)
  have hfront := (hselect.append_spells hts).append ⟨' ', _, rfl, rfl, by decide⟩ hfrom
  have hall := hfront.append_spells hus
  rw [← String.append_assoc] at hall
  rw [hall.ofText, List.append_assoc, List.append_assoc]
  exact .mk (by decide) hclauses (by rwa [List.map_map]) (by decide) hrestriction

end Grammar

end CubeAxes
