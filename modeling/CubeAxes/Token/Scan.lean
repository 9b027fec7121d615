import CubeAxes.Token

/-!
# Scanning: from the characters of a text to its tokens

Blanks are passed over. A word or a number goes on as long as it can; a name goes on to the first closing bracket that is not
doubled. A name that is never closed takes the rest of the text and is an illegal bracket, and a number too great to be written
is illegal as a whole. So scanning never fails: it ends at the end of the text, since each token takes at least a character.
-/

namespace CubeAxes.Token

/-- A word starts with an ASCII letter or an underscore. -/
def isWordStart (c : Char) : Bool := c.isAlpha || c == '_'

/-- A word goes on with ASCII letters, underscores and digits. -/
def isWordPart (c : Char) : Bool := isWordStart c || c.isDigit

/-- The text of a name after its opening bracket, and what follows the closing one; none if there is none. -/
def scanName : List Char → Option (List Char × List Char)
  | [] => none
  | ']' :: ']' :: cs => (scanName cs).map fun (text, rest) => (']' :: text, rest)
  | ']' :: cs => some ([], cs)
  | c :: cs => (scanName cs).map fun (text, rest) => (c :: text, rest)

/-- The token for a run of digits. -/
def ofDigits (first : Char) (digits : List Char) : Token :=
  let value := Nat.ofDigitChars 10 (first :: digits) 0
  if value ≤ maxNumber then .number value else .illegal first

/-- The token that starts with a character other than a blank, and what follows it. -/
def scanFrom (c : Char) (cs : List Char) : Token × List Char :=
  match c with
  | '(' => (.leftParen, cs)
  | ')' => (.rightParen, cs)
  | '\x7b' => (.leftBrace, cs)
  | '\x7d' => (.rightBrace, cs)
  | ',' => (.comma, cs)
  | '.' => (.dot, cs)
  | '[' =>
    match scanName cs with
    | some (text, rest) => (.name (String.ofList text), rest)
    | none => (.illegal '[', [])
  | c =>
    if c.isDigit then (ofDigits c (cs.takeWhile Char.isDigit), cs.dropWhile Char.isDigit)
    else if isWordStart c then (.word (String.ofList (c :: cs.takeWhile isWordPart)), cs.dropWhile isWordPart)
    else (.illegal c, cs)

/-- The first token of a text and what follows it; none if only blanks are left. -/
def next? (cs : List Char) : Option (Token × List Char) :=
  match cs.dropWhile isBlank with
  | [] => none
  | c :: cs => some (scanFrom c cs)

/-! ## Each token takes at least a character -/

/-- What follows a name is shorter than what follows its opening bracket. -/
theorem length_lt_of_scanName {cs text rest : List Char} (h : scanName cs = some (text, rest)) :
    rest.length < cs.length := by
  fun_induction scanName cs generalizing text with
  | case1 => simp at h
  | case2 cs ih =>
    obtain ⟨⟨t, r⟩, hs, he⟩ := Option.map_eq_some_iff.1 h
    obtain ⟨-, rfl⟩ := Prod.mk.inj he
    have := ih hs
    simp only [List.length_cons]
    omega
  | case3 cs _ =>
    obtain ⟨-, rfl⟩ := Prod.mk.inj (Option.some.inj h)
    simp
  | case4 c cs _ _ ih =>
    obtain ⟨⟨t, r⟩, hs, he⟩ := Option.map_eq_some_iff.1 h
    obtain ⟨-, rfl⟩ := Prod.mk.inj he
    have := ih hs
    simp only [List.length_cons]
    omega

/-- What follows a token is no longer than what follows its first character. -/
theorem length_scanFrom_le (c : Char) (cs : List Char) : (scanFrom c cs).2.length ≤ cs.length := by
  unfold scanFrom
  split <;> try exact Nat.le_refl _
  · split
    · next h => exact Nat.le_of_lt (length_lt_of_scanName h)
    · exact Nat.zero_le _
  · split
    · exact (List.dropWhile_sublist _).length_le
    · split
      · exact (List.dropWhile_sublist _).length_le
      · exact Nat.le_refl _

/-- What follows the first token of a text is shorter than the text. -/
theorem length_lt_of_next? {cs rest : List Char} {t : Token} (h : next? cs = some (t, rest)) : rest.length < cs.length := by
  unfold next? at h
  split at h
  · simp at h
  · next c cs' hd =>
    have hs := length_scanFrom_le c cs'
    have hl := (List.dropWhile_sublist isBlank (l := cs)).length_le
    rw [Option.some.inj h] at hs
    rw [hd, List.length_cons] at hl
    exact Nat.lt_of_lt_of_le (Nat.lt_succ_of_le hs) hl

/-- The tokens of a text, in order. -/
def scan (cs : List Char) : List Token :=
  match _ : next? cs with
  | none => []
  | some (t, rest) => t :: scan rest
termination_by cs.length
decreasing_by exact length_lt_of_next? ‹_›

/-- The tokens of a text. -/
def ofText (text : String) : List Token := scan text.toList

end CubeAxes.Token
