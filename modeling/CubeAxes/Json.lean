/-!
# JSON: the notation in which options are written

A reader of JSON documents, as far as options need it. The value of a number is not kept, since no option is a number. A string
can spell code units with escapes; where a surrogate among them has no partner the string has no text, which matters only to a
reader who wants the text.
-/

namespace CubeAxes

/-- A JSON value. A string without a text is one with an unpaired surrogate. -/
inductive Json where
  | null
  | bool (value : Bool)
  | number
  | string (text : Option String)
  | array (items : List Json)
  | object (fields : List (Option String × Json))
  deriving Repr

namespace Json

/-- The four characters that JSON lets stand between tokens. -/
def isSpace (c : Char) : Bool := c == ' ' || c == '\n' || c == '\r' || c == '\t'

/-- A text without the spaces at its start. -/
def skipSpace (cs : List Char) : List Char := cs.dropWhile isSpace

/-- The value of a hexadecimal digit. -/
def hexDigit? (c : Char) : Option Nat :=
  if c.isDigit then some (c.toNat - '0'.toNat)
  else if 'a' ≤ c ∧ c ≤ 'f' then some (c.toNat - 'a'.toNat + 10)
  else if 'A' ≤ c ∧ c ≤ 'F' then some (c.toNat - 'A'.toNat + 10)
  else none

/-- The code unit that four hexadecimal digits spell. -/
def codeUnit? (a b c d : Char) : Option Nat := do
  return (((← hexDigit? a) * 16 + (← hexDigit? b)) * 16 + (← hexDigit? c)) * 16 + (← hexDigit? d)

/-- The character that a backslash and a letter spell. -/
def shortEscape? (c : Char) : Option Char :=
  [('"', '"'), ('\\', '\\'), ('/', '/'), ('b', '\x08'), ('f', '\x0c'), ('n', '\n'), ('r', '\r'), ('t', '\t')].lookup c

/-- The code points and code units of a string after its opening quote, and what follows the closing one. -/
def scanUnits : List Char → Option (List Nat × List Char)
  | [] => none
  | '"' :: cs => some ([], cs)
  | '\\' :: 'u' :: a :: b :: c :: d :: cs => do
    let unit ← codeUnit? a b c d
    let (units, rest) ← scanUnits cs
    return (unit :: units, rest)
  | '\\' :: c :: cs => do
    let c ← shortEscape? c
    let (units, rest) ← scanUnits cs
    return (c.toNat :: units, rest)
  | c :: cs =>
    if c.toNat < 0x20 ∨ c = '\\' then none
    else (scanUnits cs).map fun (units, rest) => (c.toNat :: units, rest)

/-- The text of code points and code units: a high surrogate and the low one after it are one character. -/
def textOfUnits : List Nat → Option (List Char)
  | [] => some []
  | high :: low :: us =>
    if 0xD800 ≤ high ∧ high < 0xDC00 ∧ 0xDC00 ≤ low ∧ low < 0xE000 then
      (textOfUnits us).map (Char.ofNat (0x10000 + (high - 0xD800) * 0x400 + (low - 0xDC00)) :: ·)
    else if high.isValidChar then (textOfUnits (low :: us)).map (Char.ofNat high :: ·)
    else none
  | [u] => if u.isValidChar then some [Char.ofNat u] else none

/-- A string after its opening quote, and what follows it. -/
def scanString (cs : List Char) : Option (Option String × List Char) :=
  (scanUnits cs).map fun (units, rest) => ((textOfUnits units).map String.ofList, rest)

/-- What follows at least one digit. -/
def skipDigits : List Char → Option (List Char)
  | [] => none
  | c :: cs => if c.isDigit then some (cs.dropWhile Char.isDigit) else none

/-- What follows an integer part: a zero, or digits that do not start with one. -/
def skipInteger : List Char → Option (List Char)
  | '0' :: cs => some cs
  | cs => skipDigits cs

/-- What follows a fraction, if there is one. -/
def skipFraction : List Char → Option (List Char)
  | '.' :: cs => skipDigits cs
  | cs => some cs

/-- What follows a sign, if there is one. -/
def skipSign : List Char → List Char
  | '+' :: cs => cs
  | '-' :: cs => cs
  | cs => cs

/-- What follows an exponent, if there is one. -/
def skipExponent : List Char → Option (List Char)
  | 'e' :: cs => skipDigits (skipSign cs)
  | 'E' :: cs => skipDigits (skipSign cs)
  | cs => some cs

/-- What follows a number. -/
def skipNumber (cs : List Char) : Option (List Char) := do
  let cs ← skipInteger (match cs with | '-' :: cs => cs | cs => cs)
  skipExponent (← skipFraction cs)

/-- Items separated by commas up to a closing character, at least one and at most one more than a bound. -/
def scanItems {α : Type} (item : List Char → Option (α × List Char)) (close : Char) :
    Nat → List Char → Option (List α × List Char)
  | bound, cs => do
    let (first, cs) ← item cs
    match bound, skipSpace cs with
    | n + 1, ',' :: cs =>
      let (items, cs) ← scanItems item close n cs
      return (first :: items, cs)
    | _, c :: cs => if c = close then some ([first], cs) else none
    | _, [] => none

/-- Items after an opening character: none or some, each of which takes a character. -/
def scanList {α : Type} (item : List Char → Option (α × List Char)) (close : Char) (cs : List Char) :
    Option (List α × List Char) :=
  match skipSpace cs with
  | [] => none
  | c :: rest => if c = close then some ([], rest) else scanItems item close cs.length cs

/-- A key, a colon and a value. -/
def scanField (value : List Char → Option (Json × List Char)) (cs : List Char) :
    Option ((Option String × Json) × List Char) :=
  match skipSpace cs with
  | '"' :: cs => do
    let (key, cs) ← scanString cs
    match skipSpace cs with
    | ':' :: cs =>
      let (v, cs) ← value cs
      return ((key, v), cs)
    | _ => none
  | _ => none

/-- A value in which arrays and objects nest less deep than a bound, and what follows it. -/
def scanUpTo : Nat → List Char → Option (Json × List Char)
  | 0, _ => none
  | n + 1, cs =>
    match skipSpace cs with
    | 'n' :: 'u' :: 'l' :: 'l' :: cs => some (null, cs)
    | 't' :: 'r' :: 'u' :: 'e' :: cs => some (bool true, cs)
    | 'f' :: 'a' :: 'l' :: 's' :: 'e' :: cs => some (bool false, cs)
    | '"' :: cs => (scanString cs).map fun (text, rest) => (string text, rest)
    | '[' :: cs => (scanList (scanUpTo n) ']' cs).map fun (items, rest) => (array items, rest)
    | '\x7b' :: cs => (scanList (scanField (scanUpTo n)) '\x7d' cs).map fun (fields, rest) => (object fields, rest)
    | cs => (skipNumber cs).map fun rest => (number, rest)

/-- The value of a document: one value with nothing but spaces around it. Each array or object takes a character. -/
def ofText? (text : String) : Option Json := do
  let (value, rest) ← scanUpTo (text.toList.length + 1) text.toList
  if (skipSpace rest).isEmpty then some value else none

/-- The fields of a record that has fields of these names. It can also be written as an array of values, in the order of the names and
with the last ones left out; a key must have a text. -/
def fields? (names : List String) : Json → Option (List (String × Json))
  | array values => if values.length ≤ names.length then some (names.zip values) else none
  | object fields => fields.mapM fun (key, value) => key.map (·, value)
  | _ => none

/-- The choice that a value names: a string, or an object whose only key is the name and whose value is null. -/
def choice? {α : Type} (choices : List (String × α)) : Json → Option α
  | string (some name) => choices.lookup name
  | object [(some name, null)] => choices.lookup name
  | _ => none

/-- Reads the field of a name with `read`, or takes `absent` where there is none. A field must not be repeated. -/
def readField {α : Type} (name : String) (read : Json → Option α) (absent : α) (fields : List (String × Json)) : Option α :=
  match fields.filter fun f => decide (f.1 = name) with
  | [] => some absent
  | [f] => read f.2
  | _ => none

end Json

end CubeAxes
