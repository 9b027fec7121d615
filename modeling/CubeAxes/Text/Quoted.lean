import CubeAxes.Text.Blank
import CubeAxes.Text.Marks

/-!
# Quoted text: how a message shows a piece of the query

A message puts what it found between quotes. Inside them a character that could not be seen, or that would be taken for something
else, is spelled out: the usual backslash escapes, a backslash before the quote in use, and the code point in hexadecimal for
controls, format characters, separators other than the space, private use and marks. All else stands for itself.
-/

namespace CubeAxes

/-- The ranges of controls, format characters, private use and noncharacters, ends included. -/
def unseenRanges : List (Nat × Nat) :=
  [(0x00, 0x1F), (0x7F, 0x9F), (0xAD, 0xAD), (0x600, 0x605), (0x61C, 0x61C), (0x6DD, 0x6DD), (0x70F, 0x70F), (0x890, 0x891),
    (0x8E2, 0x8E2), (0x180E, 0x180E), (0x200B, 0x200F), (0x202A, 0x202E), (0x2060, 0x206F), (0xE000, 0xF8FF), (0xFDD0, 0xFDEF),
    (0xFEFF, 0xFEFF), (0xFFF0, 0xFFFB), (0xFFFE, 0xFFFF), (0x110BD, 0x110BD), (0x110CD, 0x110CD), (0x13430, 0x1343F),
    (0x1BCA0, 0x1BCA3), (0x1D173, 0x1D17A), (0xE0000, 0x10FFFF)]

/-- A character is spelled out when it shows nothing by itself: it is unseen, a mark, or a blank other than the space. -/
def isSpelledOut (c : Char) : Bool :=
  unseenRanges.any (fun r => decide (r.1 ≤ c.toNat) && decide (c.toNat ≤ r.2)) || isMark c || (isBlank c && c != ' ')

/-- The code point of a character in lower-case hexadecimal, without leading zeros, between braces. -/
def hexEscape (c : Char) : List Char :=
  ['\\', 'u', '\x7b'] ++ Nat.toDigits 16 c.toNat ++ ['\x7d']

/-- A character as it stands between two copies of `quote`. -/
def quoteChar (quote c : Char) : List Char :=
  if c = '\x00' then ['\\', '0']
  else if c = '\t' then ['\\', 't']
  else if c = '\n' then ['\\', 'n']
  else if c = '\r' then ['\\', 'r']
  else if c = '\\' then ['\\', '\\']
  else if c = quote then ['\\', quote]
  else if isSpelledOut c then hexEscape c
  else [c]

/-- A text between double quotes. -/
def quotedText (s : String) : String :=
  String.ofList (['"'] ++ s.toList.flatMap (quoteChar '"') ++ ['"'])

/-- A single character between single quotes. -/
def quotedChar (c : Char) : String :=
  String.ofList (['\''] ++ quoteChar '\'' c ++ ['\''])

end CubeAxes
