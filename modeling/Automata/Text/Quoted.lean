import Automata.Text.ExtendingMark
import Automata.Text.Printable

/-!
# Quoted characters and texts

Messages quote the characters and names they speak of, so that a reader sees where a
text begins and ends and which characters are in it. A backslash, the enclosing quote
and the few control characters with a letter of their own get a short escape; any other
character that cannot be shown, or that would attach to its neighbour, is written by
its code point. Sets stand in braces and lists in square brackets.
-/

namespace Automata.Text

/-- The letter that follows the backslash in the short escape of a character. -/
def shortEscape : Char → Option Char
  | '\x00' => some '0'
  | '\t' => some 't'
  | '\n' => some 'n'
  | '\r' => some 'r'
  | '\\' => some '\\'
  | _ => none

/-- The escape by code point: lower-case hexadecimal digits without leading zeros,
between braces. -/
def codePointEscape (c : Char) : List Char :=
  '\\' :: 'u' :: '\x7b' :: (Nat.toDigits 16 c.toNat ++ ['\x7d'])

/-- A character as it is written between two quotes of the given kind. The other kind of
quote needs no escape. -/
def escapeIn (quote c : Char) : List Char :=
  match shortEscape c with
  | some letter => ['\\', letter]
  | none =>
    if c = quote then ['\\', c]
    else if isExtendingMark c || !isPrintable c then codePointEscape c
    else [c]

/-- A character between single quotes. -/
def quoteChar (c : Char) : String :=
  String.ofList ('\'' :: (escapeIn '\'' c ++ ['\'']))

/-- A text between double quotes. -/
def quote (s : String) : String :=
  String.ofList ('"' :: (s.toList.flatMap (escapeIn '"') ++ ['"']))

/-- Items that are already written out, as a set in braces. -/
def braced (items : List String) : String :=
  "\x7b" ++ String.intercalate ", " items ++ "\x7d"

/-- Items that are already written out, as a list in square brackets. -/
def bracketed (items : List String) : String :=
  "[" ++ String.intercalate ", " items ++ "]"

end Automata.Text
