import CubeAxes.Token.Scan

/-!
# Texts that spell tokens

A text spells tokens when scanning it, and whatever stands after it, gives the tokens and then those of the rest. A text that ends in
a word or in a name does so only before a character that does not go on with it (`Spells`); a text that ends in a bracket, a comma or
a blank does so before anything (`SpellsClosed`). The texts that the library writes are put together from pieces of either kind.
-/

namespace CubeAxes

namespace Token

/-! ## One token -/

/-- Scanning goes on behind the first token. -/
theorem scan_of_next? {cs rest : List Char} {t : Token} (h : next? cs = some (t, rest)) : scan cs = t :: scan rest := by
  rw [scan]
  split
  · next h' =>
    rw [h] at h'
    cases h'
  · next h' =>
    rw [h] at h'
    obtain ⟨rfl, rfl⟩ := Prod.mk.inj (Option.some.inj h')
    rfl

/-- Where a text has ended there are no tokens. -/
theorem scan_nil : scan [] = [] := by
  rw [scan]
  split
  · rfl
  · next h => cases h

/-- Blanks are passed over. -/
theorem scan_cons_of_isBlank {c : Char} (h : isBlank c = true) (cs : List Char) : scan (c :: cs) = scan cs := by
  have hnext : next? (c :: cs) = next? cs := by
    unfold next?
    rw [List.dropWhile_cons_of_pos h]
  cases hc : next? cs with
  | none =>
    rw [scan, scan]
    split
    · split
      · rfl
      · next h' =>
        rw [hc] at h'
        cases h'
    · next h' =>
      rw [hnext, hc] at h'
      cases h'
  | some p =>
    obtain ⟨t, rest⟩ := p
    rw [scan_of_next? (hnext.trans hc), scan_of_next? hc]

/-- A character that is no blank starts a token. -/
theorem scan_cons {c : Char} {cs rest : List Char} {t : Token} (hb : isBlank c = false) (h : scanFrom c cs = (t, rest)) :
    scan (c :: cs) = t :: scan rest := by
  refine scan_of_next? ?_
  unfold next?
  rw [List.dropWhile_cons_of_neg (by simp [hb])]
  exact congrArg some h

/-- A name is read back from the way it is written, whatever it holds, if no closing bracket follows. -/
theorem scanName_escapeName (name : List Char) {rest : List Char} (h : rest.head? ≠ some ']') :
    scanName (escapeName name ++ ']' :: rest) = some (name, rest) := by
  induction name with
  | nil =>
    cases rest with
    | nil => rfl
    | cons c cs =>
      have hc : c ≠ ']' := fun e => h (congrArg some e)
      rw [escapeName, List.nil_append, scanName]
      intro cs' he
      exact hc (List.cons.inj he).1
  | cons c name ih =>
    by_cases hc : c = ']'
    · subst hc
      rw [escapeName, List.cons_append, List.cons_append, scanName, ih]
      rfl
    · rw [escapeName, List.cons_append, scanName, ih]
      · rfl
      · exact fun _ he => absurd he hc
      · exact hc
      · exact hc

/-- A character that starts a word is a letter or an underscore. -/
theorem toNat_of_isWordStart {c : Char} (h : isWordStart c = true) :
    (65 ≤ c.toNat ∧ c.toNat ≤ 90) ∨ (97 ≤ c.toNat ∧ c.toNat ≤ 122) ∨ c.toNat = 95 := by
  unfold isWordStart at h
  rw [Bool.or_eq_true, beq_iff_eq] at h
  rcases h with h | rfl
  · rcases Bool.or_eq_true_iff.1 h with h | h
    · obtain ⟨hge, hle⟩ := of_decide_eq_true h
      exact Or.inl ⟨UInt32.le_iff_toNat_le.1 hge, UInt32.le_iff_toNat_le.1 hle⟩
    · obtain ⟨hge, hle⟩ := Bool.and_eq_true_iff.1 h
      exact Or.inr (Or.inl ⟨UInt32.le_iff_toNat_le.1 (of_decide_eq_true hge), UInt32.le_iff_toNat_le.1 (of_decide_eq_true hle)⟩)
  · decide

/-- No blank starts a word. -/
theorem isBlank_of_isWordStart {c : Char} (h : isWordStart c = true) : isBlank c = false := by
  have hc := toNat_of_isWordStart h
  simp only [isBlank, blankRanges, List.any_cons, List.any_nil, Bool.or_false, Bool.or_eq_false_iff, Bool.and_eq_false_iff,
    decide_eq_false_iff_not]
  omega

/-- The code of a digit. -/
theorem toNat_of_isDigit {c : Char} (h : c.isDigit = true) : 48 ≤ c.toNat ∧ c.toNat ≤ 57 := by
  simp only [Char.isDigit, Bool.and_eq_true, decide_eq_true_eq, ge_iff_le, UInt32.le_iff_toNat_le] at h
  exact h

/-- No digit is a blank. -/
theorem isBlank_of_isDigit {c : Char} (h : c.isDigit = true) : isBlank c = false := by
  have hc := toNat_of_isDigit h
  simp only [isBlank, blankRanges, List.any_cons, List.any_nil, Bool.or_false, Bool.or_eq_false_iff, Bool.and_eq_false_iff,
    decide_eq_false_iff_not]
  omega

/-- No digit starts a word. -/
theorem isDigit_of_isWordStart {c : Char} (h : isWordStart c = true) : c.isDigit = false := by
  have hc := toNat_of_isWordStart h
  rw [← Bool.not_eq_true]
  intro hd
  have hdigit := toNat_of_isDigit hd
  omega

/-- A character that starts a word stands for no other token. -/
theorem scanFrom_of_isWordStart {c : Char} (h : isWordStart c = true) (cs : List Char) :
    scanFrom c cs = (.word (String.ofList (c :: cs.takeWhile isWordPart)), cs.dropWhile isWordPart) := by
  have hne : ∀ d : Char, isWordStart d = false → c ≠ d := by
    rintro d hd rfl
    rw [h] at hd
    nomatch hd
  rw [scanFrom, isDigit_of_isWordStart h, h]
  · rfl
  all_goals exact hne _ (by decide)

/-- Characters of some kind before a rest that starts with none of them are all that is taken of that kind. -/
theorem takeWhile_append_of_head? {p : Char → Bool} {cs rest : List Char} (hcs : cs.all p = true)
    (h : ∀ c ∈ rest.head?, p c = false) : (cs ++ rest).takeWhile p = cs ∧ (cs ++ rest).dropWhile p = rest := by
  have hrest : rest.takeWhile p = [] ∧ rest.dropWhile p = rest := by
    cases rest with
    | nil => exact ⟨rfl, rfl⟩
    | cons c rest =>
      have hc : ¬p c = true := by simp [h c rfl]
      exact ⟨List.takeWhile_cons_of_neg hc, List.dropWhile_cons_of_neg hc⟩
  rw [List.takeWhile_append_of_pos (List.all_eq_true.1 hcs), List.dropWhile_append_of_pos (List.all_eq_true.1 hcs), hrest.1, hrest.2,
    List.append_nil]
  exact ⟨rfl, rfl⟩

/-- A name in brackets is scanned as the name, if no closing bracket follows. -/
theorem scan_bracketed (name : String) {rest : List Char} (h : rest.head? ≠ some ']') :
    scan ((bracketed name).toList ++ rest) = .name name :: scan rest := by
  have hscan : scanFrom '[' (escapeName name.toList ++ ']' :: rest) = (.name name, rest) := by
    rw [scanFrom, scanName_escapeName name.toList h]
    simp only [String.ofList_toList]
  rw [bracketed, String.toList_ofList, List.append_assoc, List.append_assoc]
  exact scan_cons (by decide) hscan

/-- Whether a text is a word as a whole. -/
def isWord (w : String) : Bool :=
  match w.toList with
  | [] => false
  | c :: cs => isWordStart c && cs.all isWordPart

/-- A word is scanned as itself, if nothing follows that goes on with it. -/
theorem scan_word {w : String} (h : isWord w = true) {rest : List Char} (hrest : ∀ c ∈ rest.head?, isWordPart c = false) :
    scan (w.toList ++ rest) = .word w :: scan rest := by
  unfold isWord at h
  split at h
  · nomatch h
  · next c cs hw =>
    obtain ⟨hc, hcs⟩ := Bool.and_eq_true_iff.1 h
    obtain ⟨htake, hdrop⟩ := takeWhile_append_of_head? hcs hrest
    have hscan : scanFrom c (cs ++ rest) = (.word w, rest) := by
      rw [scanFrom_of_isWordStart hc, htake, hdrop, ← hw, String.ofList_toList]
    rw [hw]
    exact scan_cons (isBlank_of_isWordStart hc) hscan

/-! ## What can follow -/

/-- A rest before which words, numbers and names end: it starts with nothing that goes on with one of them. -/
def Stops : List Char → Prop
  | [] => True
  | c :: _ => isWordPart c = false ∧ c ≠ ']'

/-- Before such a rest a word ends. -/
theorem Stops.head?_isWordPart {rest : List Char} (h : Stops rest) : ∀ c ∈ rest.head?, isWordPart c = false := by
  cases rest with
  | nil => exact fun c hc => nomatch hc
  | cons c cs =>
    intro d hd
    obtain rfl := Option.some.inj hd
    exact h.1

/-- Before such a rest a name ends. -/
theorem Stops.head?_ne {rest : List Char} (h : Stops rest) : rest.head? ≠ some ']' := by
  cases rest with
  | nil => exact fun he => nomatch he
  | cons c cs => exact fun he => h.2 (Option.some.inj he)

/-- A text that starts with a character before which words and names end. -/
def Starts (s : String) : Prop := ∃ c cs, s.toList = c :: cs ∧ isWordPart c = false ∧ c ≠ ']'

theorem Starts.stops {s : String} (h : Starts s) (rest : List Char) : Stops (s.toList ++ rest) := by
  obtain ⟨c, cs, hs, hc⟩ := h
  rw [hs]
  exact hc

/-! ## Spelling -/

/-- A text spells tokens where words and names end behind it. -/
def Spells (s : String) (ts : List Token) : Prop := ∀ rest, Stops rest → scan (s.toList ++ rest) = ts ++ scan rest

/-- A text spells tokens whatever stands behind it. -/
def SpellsClosed (s : String) (ts : List Token) : Prop := ∀ rest, scan (s.toList ++ rest) = ts ++ scan rest

theorem SpellsClosed.spells {s : String} {ts : List Token} (h : SpellsClosed s ts) : Spells s ts := fun rest _ => h rest

/-- Behind a closed text any text spells what it spells alone. -/
theorem SpellsClosed.append {s s' : String} {ts ts' : List Token} (h : SpellsClosed s ts) (h' : SpellsClosed s' ts') :
    SpellsClosed (s ++ s') (ts ++ ts') := by
  intro rest
  rw [String.toList_append, List.append_assoc, h, h', List.append_assoc]

theorem SpellsClosed.append_spells {s s' : String} {ts ts' : List Token} (h : SpellsClosed s ts) (h' : Spells s' ts') :
    Spells (s ++ s') (ts ++ ts') := by
  intro rest hr
  rw [String.toList_append, List.append_assoc, h, h' rest hr, List.append_assoc]

/-- Behind any text a text does so that starts with a character before which words and names end. -/
theorem Spells.append {s s' : String} {ts ts' : List Token} (h : Spells s ts) (hs : Starts s') (h' : SpellsClosed s' ts') :
    SpellsClosed (s ++ s') (ts ++ ts') := by
  intro rest
  rw [String.toList_append, List.append_assoc, h _ (hs.stops rest), h', List.append_assoc]

/-- A text that spells tokens has them as its tokens. -/
theorem Spells.ofText {s : String} {ts : List Token} (h : Spells s ts) : ofText s = ts := by
  have hnil := h [] trivial
  rw [List.append_nil] at hnil
  rw [Token.ofText, hnil, scan_nil, List.append_nil]

/-- A name in brackets spells the name. -/
theorem spells_bracketed (name : String) : Spells (bracketed name) [.name name] := fun _ hr => scan_bracketed name hr.head?_ne

/-- A word spells itself. -/
theorem spells_word {w : String} (h : isWord w = true) : Spells w [.word w] := fun _ hr => scan_word h hr.head?_isWordPart

/-- A single character that is a token. -/
theorem spellsClosed_of_scanFrom {s : String} {c : Char} {t : Token} (hs : s.toList = [c]) (hb : isBlank c = false)
    (h : ∀ rest, scanFrom c rest = (t, rest)) : SpellsClosed s [t] := by
  intro rest
  rw [hs]
  exact scan_cons hb (h rest)

theorem spellsClosed_leftParen : SpellsClosed "(" [.leftParen] := spellsClosed_of_scanFrom rfl rfl fun _ => rfl

theorem spellsClosed_rightParen : SpellsClosed ")" [.rightParen] := spellsClosed_of_scanFrom rfl rfl fun _ => rfl

theorem spellsClosed_leftBrace : SpellsClosed "\x7b" [.leftBrace] := spellsClosed_of_scanFrom rfl rfl fun _ => rfl

theorem spellsClosed_rightBrace : SpellsClosed "\x7d" [.rightBrace] := spellsClosed_of_scanFrom rfl rfl fun _ => rfl

theorem spellsClosed_dot : SpellsClosed "." [.dot] := spellsClosed_of_scanFrom rfl rfl fun _ => rfl

/-- A blank spells nothing. -/
theorem spellsClosed_blank : SpellsClosed " " [] := fun rest => scan_cons_of_isBlank rfl rest

/-- A comma and a blank spell the comma. -/
theorem spellsClosed_comma : SpellsClosed ", " [.comma] := by
  have hcomma : SpellsClosed "," [.comma] := spellsClosed_of_scanFrom rfl rfl fun _ => rfl
  exact hcomma.append spellsClosed_blank

end Token

end CubeAxes
