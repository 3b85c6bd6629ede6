/-!
# Patterns

A pattern denotes a set of words. It is a choice between terms, separated by bars; a term
is a sequence of factors, and a term without factors stands for the empty word; a factor
is a character or a pattern in parentheses, repeated for each star after it. Parentheses
only group, so they leave no trace in the tree of a pattern.
-/

namespace Automata

/-- The tree of a pattern. -/
inductive Pattern where
  /-- A term without factors. -/
  | blank
  /-- A single character. The letter `e` denotes the empty word. -/
  | literal (c : Char)
  /-- One part after the other. -/
  | append (left right : Pattern)
  /-- One of two alternatives. -/
  | choice (lower upper : Pattern)
  /-- Any number of repetitions. -/
  | star (inner : Pattern)
  deriving DecidableEq

namespace Pattern

/-- How many groups may be open at once. -/
def maxNesting : Nat := 64

/-- Whether a character has a meaning of its own in patterns. -/
def isOperator (c : Char) : Bool := c = '(' || c = ')' || c = '|' || c = '*'

/-- The name of the state with the given number. -/
def stateName (number : Nat) : String := "q" ++ toString number

end Pattern

end Automata
