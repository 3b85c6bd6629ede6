import Automata.Error
import Automata.Pattern.Cursor

/-!
# What can go wrong with a pattern

Reading a pattern fails at a place, for one of five reasons. The message shows the whole
pattern with a caret under the first character that was not read.
-/

namespace Automata.Pattern

open Text

/-- Why a pattern could not be read. -/
inductive Fault where
  /-- Another character stands where this one was demanded. -/
  | expected (c : Char)
  /-- The pattern ends too early; the character is the one that was demanded, if any. -/
  | unexpectedEnd (expected : Option Char)
  /-- This operator has nothing before it to apply to. -/
  | dangling (operator : Char)
  /-- A group is closed that was never opened. -/
  | unbalanced
  /-- More groups than this would be open at once. -/
  | tooDeep (max : Nat)
  deriving DecidableEq

/-- The failure of an operation on a pattern. -/
inductive Error where
  /-- The pattern could not be read any further than this. -/
  | misread (fault : Fault) (place : Cursor)
  /-- The automaton for the pattern could not be built. -/
  | automaton (error : Automata.Error)
  deriving DecidableEq

/-- The number of a fault in its message. -/
def Fault.number : Fault → String
  | .expected _ => "101"
  | .unexpectedEnd _ => "102"
  | .dangling _ => "103"
  | .unbalanced => "104"
  | .tooDeep _ => "105"

/-- The words of a fault in its message. -/
def Fault.words : Fault → String
  | .expected c => "expected " ++ quoteChar c
  | .unexpectedEnd none => "unexpected end of pattern"
  | .unexpectedEnd (some c) => "unexpected end of pattern, expected " ++ quoteChar c
  | .dangling operator => quoteChar operator ++ " has nothing to apply to"
  | .unbalanced => "unbalanced input"
  | .tooDeep max => "groups nest deeper than " ++ toString max

/-- The message for a reader. The caret stands as many columns in as characters were
read. -/
def Error.message (style : Style) : Error → String
  | .misread fault place =>
    style.tag fault.number ++ " " ++ fault.words ++ ":\n | " ++ place.text ++ "\n | " ++
      String.ofList (List.replicate place.read.length ' ') ++ style.paint .green "^"
  | .automaton error => error.message style

end Automata.Pattern
