/-!
# The written form of an automaton

Both kinds of automaton are written as the five parts of their definition, one after the
other: the states, the alphabet, the transition table, the start and the final states.
The table has a heading with one column for each symbol, and a row for each state.
-/

namespace Automata

/-- The parts of an automaton, ready to be written. -/
structure Table where
  alphabet : List Char
  /-- The symbols that head the columns. -/
  columns : List Char
  /-- The states, each with one cell for each column. -/
  rows : List (String × List String)
  start : Option String
  finals : List String
  deriving DecidableEq

namespace Table

/-- A named set on a line of its own, with a space after each member. -/
def setLine (name : String) (members : List String) : String :=
  name ++ " = \x7b " ++ String.join (members.map (· ++ " ")) ++ "\x7d\n"

/-- The line of a state: a tab stands before its name and before each cell. -/
def rowLine (row : String × List String) : String :=
  "\t" ++ row.1 ++ String.join (row.2.map ("\t" ++ ·)) ++ "\n"

/-- The text of a table. A missing start is written as a dash. -/
def render (table : Table) : String :=
  setLine "Q" (table.rows.map (·.1)) ++
  setLine "Sigma" (table.alphabet.map Char.toString) ++
  "delta =\n" ++
  "\t\t" ++ String.join (table.columns.map (·.toString ++ "\t")) ++ "\n" ++
  String.join (table.rows.map rowLine) ++
  "q0 = " ++ table.start.getD "-" ++ "\n" ++
  setLine "F" table.finals

end Table

end Automata
