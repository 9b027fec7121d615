import CubeAxes.Text.Quoted

/-!
# Tokens: the units of a query's text

A word is a bare identifier: a keyword, a function or an axis. A name is written in brackets and can hold any text, a closing
bracket in it being doubled. A character that starts no token is a token of its own kind, which no rule of the grammar accepts.
The end of the text is not a token: where one is asked for and the text has ended, the answer is none.
-/

namespace CubeAxes

/-- A unit of a query's text. -/
inductive Token where
  | word (text : String)
  | name (text : String)
  | number (value : Nat)
  | leftParen | rightParen | leftBrace | rightBrace | comma | dot
  | illegal (c : Char)
  deriving DecidableEq, Repr

/-- The greatest number that can be written. -/
def maxNumber : Nat := 4294967295

/-- Whether two words differ at most in the case of ASCII letters; other letters keep theirs. -/
def sameWord (a b : String) : Bool := decide (a.toList.map Char.toUpper = b.toList.map Char.toUpper)

/-- A closing bracket in a name is written twice. -/
def escapeName : List Char → List Char
  | [] => []
  | ']' :: cs => ']' :: ']' :: escapeName cs
  | c :: cs => c :: escapeName cs

/-- A name as it is written, in brackets. -/
def bracketed (s : String) : String := String.ofList (['['] ++ escapeName s.toList ++ [']'])

namespace Token

/-- Whether a token is a given keyword: a word, in any case. -/
def isKeyword (t : Token) (keyword : String) : Bool :=
  match t with
  | .word text => sameWord text keyword
  | _ => false

/-- A token as it stands in a query. -/
def spelling : Token → String
  | .word text => text
  | .name text => bracketed text
  | .number value => Nat.repr value
  | .leftParen => "("
  | .rightParen => ")"
  | .leftBrace => "\x7b"
  | .rightBrace => "\x7d"
  | .comma => ","
  | .dot => "."
  | .illegal c => "ILLEGAL(" ++ String.singleton c ++ ")"

/-- A token as a message shows it: its kind, and what it holds in quotes. -/
def description : Token → String
  | .word text => "Identifier(" ++ quotedText text ++ ")"
  | .name text => "Bracketed(" ++ quotedText text ++ ")"
  | .number value => "Number(" ++ Nat.repr value ++ ")"
  | .leftParen => "LParen"
  | .rightParen => "RParen"
  | .leftBrace => "LBrace"
  | .rightBrace => "RBrace"
  | .comma => "Comma"
  | .dot => "Dot"
  | .illegal c => "Illegal(" ++ quotedChar c ++ ")"

/-- What a message says was found: a token or the end of the text. -/
def foundDescription : Option Token → String
  | none => "EOF"
  | some t => t.description

end Token

end CubeAxes
