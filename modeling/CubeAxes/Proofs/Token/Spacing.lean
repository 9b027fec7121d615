import Mathlib.Data.List.Chain
import CubeAxes.Proofs.Grammar.Accepting
import CubeAxes.Proofs.Grammar.Writing

/-!
# Scanning undoes spelling

Tokens that are spelled one after the other, with any blanks between them, are scanned as these tokens, so long as there is a blank
between two words or numbers (`Token.scan_spaced`): each token ends before the one behind it, since none starts with a closing
square bracket. So the text of a path is read as the member that the path names, and no two paths have one text.
-/

namespace CubeAxes

namespace Token

/-- The tokens that can be spelled: words, names, the numbers that are not too great, and single characters that are tokens. -/
def isSpellable : Token → Bool
  | .word text => isWord text
  | .number value => decide (value ≤ maxNumber)
  | .illegal _ => false
  | _ => true

/-- A word or a number is a run of letters and digits, with nothing to mark its end. -/
def isRun : Token → Bool
  | .word _ | .number _ => true
  | _ => false

/-- Whether a token goes on with a character that stands right behind it. -/
def goesOn : Token → Char → Bool
  | .word _, c => isWordPart c
  | .number _, c => c.isDigit
  | .name _, c => c == ']'
  | _, _ => false

/-- Tokens spelled one after the other, each behind a gap, and a gap at the end. -/
def spaced : List (String × Token) → String → String
  | [], last => last
  | (gap, t) :: ps, last => gap ++ t.spelling ++ spaced ps last

/-- Each token can be spelled, gaps are blank, and there is one between two words or numbers. -/
structure WellSpaced (ps : List (String × Token)) (last : String) : Prop where
  spellable : ∀ p ∈ ps, p.2.isSpellable = true
  blank : ∀ p ∈ ps, p.1.toList.all isBlank = true
  blank_last : last.toList.all isBlank = true
  apart : ps.IsChain fun p q => p.2.isRun = true → q.2.isRun = true → q.1 ≠ ""

/-- The answers when the next token is asked for that many times; where a text has ended, nothing is left of it. -/
def calls : Nat → List Char → List (Option Token)
  | 0, _ => []
  | n + 1, cs =>
    match next? cs with
    | none => none :: calls n []
    | some (t, rest) => some t :: calls n rest

/-! ## Numbers -/

/-- A digit starts a number, and no other token. -/
theorem scanFrom_of_isDigit {c : Char} (h : c.isDigit = true) (cs : List Char) :
    scanFrom c cs = (ofDigits c (cs.takeWhile Char.isDigit), cs.dropWhile Char.isDigit) := by
  have hne : ∀ d : Char, d.isDigit = false → c ≠ d := by
    rintro d hd rfl
    rw [h] at hd
    cases hd
  rw [scanFrom, if_pos h]
  all_goals exact hne _ (by decide)

/-- A number that is not too great is scanned as itself, if no digit follows. -/
theorem scan_number {n : Nat} (h : n ≤ maxNumber) {rest : List Char} (hrest : ∀ c ∈ rest.head?, c.isDigit = false) :
    scan ((Nat.repr n).toList ++ rest) = .number n :: scan rest := by
  have hvalue : Nat.ofDigitChars 10 (Nat.toDigits 10 n) 0 = n := Nat.ofDigitChars_toDigits (by decide) (by decide)
  have hdigits : ∀ c ∈ Nat.toDigits 10 n, c.isDigit = true := fun c hc => Nat.isDigit_of_mem_toDigits (by decide) (by decide) hc
  rw [Nat.toList_repr]
  cases hds : Nat.toDigits 10 n with
  | nil => exact absurd hds Nat.toDigits_ne_nil
  | cons c cs =>
    rw [hds] at hvalue hdigits
    obtain ⟨hc, hcs⟩ := List.forall_mem_cons.1 hdigits
    obtain ⟨htake, hdrop⟩ := takeWhile_append_of_head? (List.all_eq_true.2 hcs) hrest
    have hscan : scanFrom c (cs ++ rest) = (.number n, rest) := by
      rw [scanFrom_of_isDigit hc, htake, hdrop, ofDigits, hvalue]
      simp only [if_pos h]
    exact scan_cons (isBlank_of_isDigit hc) hscan

/-! ## One token -/

/-- A token that can be spelled is scanned from its spelling, if nothing follows that it goes on with. -/
theorem scan_spelling {t : Token} (h : t.isSpellable = true) {rest : List Char} (hrest : ∀ c ∈ rest.head?, t.goesOn c = false) :
    scan (t.spelling.toList ++ rest) = t :: scan rest := by
  cases t with
  | word text => exact scan_word h hrest
  | name text =>
    refine scan_bracketed text fun he => ?_
    have hgoes := hrest ']' he
    cases hgoes
  | number value => exact scan_number (of_decide_eq_true h) hrest
  | leftParen => exact spellsClosed_leftParen rest
  | rightParen => exact spellsClosed_rightParen rest
  | leftBrace => exact spellsClosed_leftBrace rest
  | rightBrace => exact spellsClosed_rightBrace rest
  | comma => exact scan_cons rfl rfl
  | dot => exact spellsClosed_dot rest
  | illegal c => cases h

/-- How a spelling starts: not with a closing square bracket, and with a character of a word only if it is a word or a number. -/
theorem exists_spelling_cons {t : Token} (h : t.isSpellable = true) :
    ∃ c cs, t.spelling.toList = c :: cs ∧ c ≠ ']' ∧ (t.isRun = false → isWordPart c = false) := by
  cases t with
  | word text =>
    change isWord text = true at h
    unfold isWord at h
    split at h
    · cases h
    · next c cs hw =>
      refine ⟨c, cs, hw, ?_, fun hrun => Bool.noConfusion hrun⟩
      rintro rfl
      cases (Bool.and_eq_true_iff.1 h).1
  | number value =>
    have hspelling : (Token.number value).spelling.toList = Nat.toDigits 10 value := Nat.toList_repr
    cases hds : Nat.toDigits 10 value with
    | nil => exact absurd hds Nat.toDigits_ne_nil
    | cons c cs =>
      have hc : c.isDigit = true := Nat.isDigit_of_mem_toDigits (by decide) (by decide) (hds ▸ List.mem_cons_self)
      refine ⟨c, cs, hspelling.trans hds, ?_, fun hrun => Bool.noConfusion hrun⟩
      rintro rfl
      cases hc
  | name text =>
    refine ⟨'[', escapeName text.toList ++ [']'], ?_, by decide, fun _ => by decide⟩
    rw [spelling, bracketed, String.toList_ofList]
    rfl
  | leftParen => exact ⟨'(', [], rfl, by decide, fun _ => by decide⟩
  | rightParen => exact ⟨')', [], rfl, by decide, fun _ => by decide⟩
  | leftBrace => exact ⟨'\x7b', [], rfl, by decide, fun _ => by decide⟩
  | rightBrace => exact ⟨'\x7d', [], rfl, by decide, fun _ => by decide⟩
  | comma => exact ⟨',', [], rfl, by decide, fun _ => by decide⟩
  | dot => exact ⟨'.', [], rfl, by decide, fun _ => by decide⟩
  | illegal c => cases h

/-! ## What stands behind a token -/

/-- No token goes on with a blank. -/
theorem goesOn_of_isBlank {c : Char} (h : isBlank c = true) (t : Token) : t.goesOn c = false := by
  have hstart : isWordStart c = false := by
    rw [← Bool.not_eq_true]
    intro hs
    rw [isBlank_of_isWordStart hs] at h
    cases h
  have hdigit : c.isDigit = false := by
    rw [← Bool.not_eq_true]
    intro hd
    rw [isBlank_of_isDigit hd] at h
    cases h
  cases t with
  | word text => exact Bool.or_eq_false_iff.2 ⟨hstart, hdigit⟩
  | number value => exact hdigit
  | name text =>
    refine beq_eq_false_iff_ne.2 ?_
    rintro rfl
    cases h
  | _ => rfl

/-- No token goes on with the start of a spelling, unless both are words or numbers. -/
theorem goesOn_of_start {t : Token} {c : Char} (hbracket : c ≠ ']') (hc : t.isRun = true → isWordPart c = false) :
    t.goesOn c = false := by
  cases t with
  | word text => exact hc rfl
  | number value => exact (Bool.or_eq_false_iff.1 (hc rfl)).2
  | name text => exact beq_eq_false_iff_ne.2 hbracket
  | _ => rfl

/-- Blanks in front are passed over. -/
theorem scan_append_of_blank {gap : List Char} (h : gap.all isBlank = true) (rest : List Char) : scan (gap ++ rest) = scan rest := by
  induction gap with
  | nil => rfl
  | cons c gap ih =>
    obtain ⟨hc, hgap⟩ := Bool.and_eq_true_iff.1 h
    rw [List.cons_append, scan_cons_of_isBlank hc, ih hgap]

/-- A spelled-out rest starts with a blank or with the spelling of its first token, before which there is no gap. -/
theorem head?_spaced {ps : List (String × Token)} {last : String} (h : WellSpaced ps last) {c : Char}
    (hc : c ∈ (spaced ps last).toList.head?) :
    isBlank c = true ∨ ∃ u ps', ps = ("", u) :: ps' ∧ c ≠ ']' ∧ (u.isRun = false → isWordPart c = false) := by
  cases ps with
  | nil => exact Or.inl (List.all_eq_true.1 h.blank_last c (List.mem_of_mem_head? hc))
  | cons p ps =>
    obtain ⟨gap, u⟩ := p
    rw [spaced, String.toList_append, String.toList_append, List.append_assoc] at hc
    cases hgap : gap.toList with
    | cons b bs =>
      rw [hgap] at hc
      obtain rfl := Option.some.inj hc
      have hblank := h.blank _ List.mem_cons_self
      rw [hgap] at hblank
      exact Or.inl (Bool.and_eq_true_iff.1 hblank).1
    | nil =>
      obtain rfl := String.toList_eq_nil_iff.1 hgap
      obtain ⟨d, ds, hspelling, hbracket, hrun⟩ := exists_spelling_cons (h.spellable _ List.mem_cons_self)
      rw [hgap, hspelling] at hc
      obtain rfl := Option.some.inj hc
      exact Or.inr ⟨u, ps, rfl, hbracket, hrun⟩

/-! ## Many tokens -/

/-- Without its first token a well-spaced text is well spaced. -/
theorem WellSpaced.tail {p : String × Token} {ps : List (String × Token)} {last : String} (h : WellSpaced (p :: ps) last) :
    WellSpaced ps last where
  spellable := (List.forall_mem_cons.1 h.spellable).2
  blank := (List.forall_mem_cons.1 h.blank).2
  blank_last := h.blank_last
  apart := h.apart.tail

/-- No token of a well-spaced text goes on with what stands behind it. -/
theorem WellSpaced.goesOn {gap : String} {t : Token} {ps : List (String × Token)} {last : String}
    (h : WellSpaced ((gap, t) :: ps) last) : ∀ c ∈ (spaced ps last).toList.head?, t.goesOn c = false := by
  intro c hc
  rcases head?_spaced h.tail hc with hblank | ⟨u, ps', rfl, hbracket, hrun⟩
  · exact goesOn_of_isBlank hblank t
  · refine goesOn_of_start hbracket fun ht => hrun ?_
    have hapart := (List.isChain_cons_cons.1 h.apart).1 ht
    rw [← Bool.not_eq_true]
    exact fun hu => hapart hu rfl

/-- The tokens of a well-spaced text are those that it is spelled from. -/
theorem scan_spaced {ps : List (String × Token)} {last : String} (h : WellSpaced ps last) :
    scan (spaced ps last).toList = ps.map (·.2) := by
  induction ps with
  | nil =>
    have hblank := scan_append_of_blank h.blank_last []
    rw [List.append_nil] at hblank
    rw [spaced, hblank, scan_nil]
    rfl
  | cons p ps ih =>
    obtain ⟨gap, t⟩ := p
    rw [spaced, String.toList_append, String.toList_append, List.append_assoc, scan_append_of_blank (h.blank _ List.mem_cons_self),
      scan_spelling (h.spellable _ List.mem_cons_self) h.goesOn, ih h.tail]
    rfl

/-- Asking for the next token again and again gives the tokens of a text, and then none as often as it is asked for. -/
theorem calls_eq (cs : List Char) (n : Nat) :
    calls ((scan cs).length + n) cs = (scan cs).map some ++ List.replicate n none := by
  have hend : ∀ n, calls n [] = List.replicate n none := by
    intro n
    induction n with
    | zero => rfl
    | succ n ih => exact congrArg (none :: ·) ih
  fun_induction scan cs with
  | case1 cs hcs =>
    cases n with
    | zero => rfl
    | succ n =>
      rw [List.length_nil, Nat.zero_add, calls, hcs]
      exact congrArg (none :: ·) (hend n)
  | case2 cs t rest hcs ih =>
    rw [List.length_cons, Nat.add_right_comm, calls, hcs]
    exact congrArg (some t :: ·) ih

end Token

/-! ## Paths -/

namespace MemberPath

/-- The text of a path that has a name is read as the member that the path names. -/
theorem ofText_text {p : MemberPath} (h : p.segments ≠ []) : SetExpr.ofText p.text = .ok (.reference (.member p)) := by
  obtain ⟨ts, hspells, hpath⟩ := Grammar.exists_isPath h
  refine SetExpr.ofText_eq_ok ?_
  rw [hspells.ofText]
  exact .reference (.member hpath)

/-- The text of a path is empty when it has no name. -/
theorem text_eq_empty_iff {p : MemberPath} : p.text = "" ↔ p.segments = [] := by
  constructor
  · intro h
    by_contra hp
    have hread := ofText_text hp
    have hempty : (SetExpr.ofText "").toOption.isNone = true := by decide +kernel
    rw [← h, hread] at hempty
    cases hempty
  · intro h
    rw [text, h]
    rfl

/-- No two paths have the same text, whatever their names hold. -/
theorem text_injective : Function.Injective text := by
  intro p p' h
  by_cases hp : p.segments = []
  · have hp' : p'.segments = [] := text_eq_empty_iff.1 (h.symm.trans (text_eq_empty_iff.2 hp))
    exact congrArg mk (hp.trans hp'.symm)
  · have hp' : p'.segments ≠ [] := fun hp' => hp (text_eq_empty_iff.1 (h.trans (text_eq_empty_iff.2 hp')))
    have hread := ofText_text hp
    rw [h, ofText_text hp'] at hread
    exact (Reference.member.inj (SetExpr.reference.inj (Except.ok.inj hread))).symm

end MemberPath

/-- Scanning undoes spelling: of a well-spaced text the tokens are those that it is spelled from, and asking for the next one over and
over gives them in their order and then none for good. So the text of a path that has a name is read as the member that the path names
and nothing else, and different paths have different texts. -/
theorem Token.scan_undoes_spelling :
    (∀ ps last, Token.WellSpaced ps last → Token.ofText (Token.spaced ps last) = ps.map (·.2) ∧
      ∀ n, Token.calls (ps.length + n) (Token.spaced ps last).toList = ps.map (fun p => some p.2) ++ List.replicate n none) ∧
    (∀ p : MemberPath, p.segments ≠ [] → SetExpr.ofText p.text = .ok (.reference (.member p))) ∧
    ∀ p p' : MemberPath, p ≠ p' → p.text ≠ p'.text := by
  refine ⟨fun ps last h => ⟨Token.scan_spaced h, fun n => ?_⟩, fun p => MemberPath.ofText_text, fun p p' hne he => ?_⟩
  · have hcalls := Token.calls_eq (Token.spaced ps last).toList n
    rwa [Token.scan_spaced h, List.length_map, List.map_map] at hcalls
  · exact hne (MemberPath.text_injective he)

/-- Names that end in brackets, one of them empty, next to a number and to words, with blanks of several widths. -/
theorem Token.scan_undoes_spelling_brackets :
    Token.ofText "[a]]]\u3000_x9 \t4294967295[]][]\x7d.\nx[[]\u2028" =
        [.name "a]", .word "_x9", .number 4294967295, .name "][", .rightBrace, .dot, .word "x", .name "["] ∧
      SetExpr.ofText "[]]].[.].[]" = .ok (.reference (.member ⟨["]", ".", ""]⟩)) ∧
      MemberPath.text ⟨["a].[b"]⟩ ≠ MemberPath.text ⟨["a", "b"]⟩ := by
  obtain ⟨hspaced, hpath, hdifferent⟩ := Token.scan_undoes_spelling
  have hwell : Token.WellSpaced [("", .name "a]"), ("\u3000", .word "_x9"), (" \t", .number 4294967295), ("", .name "]["),
      ("", .rightBrace), ("", .dot), ("\n", .word "x"), ("", .name "[")] "\u2028" :=
    ⟨by decide +kernel, by decide +kernel, by decide +kernel, by simp [Token.isRun]⟩
  exact ⟨(hspaced _ _ hwell).1, hpath ⟨["]", ".", ""]⟩ (by decide), hdifferent _ _ (by decide)⟩

end CubeAxes
