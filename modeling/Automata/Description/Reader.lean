import Automata.Description.Basic
import Automata.Description.Combinators
import Automata.Text.Lines

/-!
# Reading descriptions

The first four lines hold the final states, the start, further states and the edges;
lines that are missing count as empty. Spaces and tabs separate the words of a line, and
no other blank may occur in these lines. On the first three a word is a name; on the
second there is exactly one. On the fourth a word is an edge: the name of its source, its
symbol and the name of its target, one character each. Every later line that is not blank
is an input, without the blanks around it.
-/

namespace Automata.Description

open Text

/-- Whether a character separates words. -/
def isSeparator (c : Char) : Bool := c = ' ' || c = '\t'

/-- A character that is not blank. -/
def visible : Parser Char := .satisfy (!isBlank ·)

/-- The name of a state. -/
def name : Parser String := .map String.ofList (.takeWhile1 (!isBlank ·))

/-- An edge. -/
def edge : Parser Edge :=
  .map (fun ((source, symbol), target) => { source, symbol, target })
    (.pair (.pair visible visible) visible)

/-- Any number of items with separators between them and at both ends. -/
def listing {α : Type} (item : Parser α) : Parser (List α) :=
  .delimited (.takeWhile0 isSeparator) (.separatedList0 (.takeWhile1 isSeparator) item)
    (.takeWhile0 isSeparator)

/-- What a parser makes of a whole line, or the characters from which on it cannot be read. -/
def readLine {α : Type} (parser : Parser α) (line : List Char) : Except (List Char) α :=
  parser.allConsuming.run line |>.map Prod.fst

/-- The names on a line. -/
def readNames : List Char → Except (List Char) (List String) := readLine (listing name)

/-- The edges on a line. -/
def readEdges : List Char → Except (List Char) (List Edge) := readLine (listing edge)

/-- What was read from a line, or the error that names the line. -/
def onLine {α : Type} (number : Nat) (result : Except (List Char) α) : Except Error α :=
  result.mapError (.malformed number)

/-- The only name of a list of names. -/
def singleName : List String → Except (List Char) String
  | [name] => .ok name
  | _ => .error []

/-- The inputs on lines. -/
def readInputs (lines : List (List Char)) : List String :=
  ((lines.map trimBlanks).filter (!·.isEmpty)).map String.ofList

/-- The description that a text holds. -/
def parse (text : String) : Except Error Description := do
  let all := lines text.toList
  let finals ← onLine 1 (readNames (all.getD 0 []))
  let names ← onLine 2 (readNames (all.getD 1 []))
  let start ← onLine 2 (singleName names)
  let states ← onLine 3 (readNames (all.getD 2 []))
  let edges ← onLine 4 (readEdges (all.getD 3 []))
  return { finals, start, states, edges, inputs := readInputs (all.drop 4) }

end Automata.Description
