/-!
# Places in a pattern

A cursor divides the characters of a pattern into those already read and those to come.
-/

namespace Automata.Pattern

/-- A place in a pattern. -/
structure Cursor where
  read : List Char := []
  rest : List Char
  deriving DecidableEq

/-- The whole pattern. -/
def Cursor.text (cursor : Cursor) : String := String.ofList (cursor.read ++ cursor.rest)

end Automata.Pattern
