/-!
# Lines of a text

A line feed ends a line, and a carriage return right before it belongs to the ending.
The characters after the last line feed form a line of their own if there are any. A
carriage return anywhere else is an ordinary character of its line.
-/

namespace Automata.Text

/-- A line that a line feed ended, without the carriage return that may close it. -/
def dropReturn (line : List Char) : List Char :=
  if line.getLast? = some '\r' then line.dropLast else line

/-- The lines after the given beginning of the current line, which is held reversed. -/
def linesFrom (current : List Char) : List Char → List (List Char)
  | [] => if current.isEmpty then [] else [current.reverse]
  | c :: rest =>
    if c = '\n' then dropReturn current.reverse :: linesFrom [] rest
    else linesFrom (c :: current) rest

/-- The lines of a text, without their endings. -/
def lines (cs : List Char) : List (List Char) := linesFrom [] cs

end Automata.Text
