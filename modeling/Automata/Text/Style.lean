/-!
# Colour in messages

Messages can be written plain or for a terminal that understands colour codes. A coloured
text stands between the code that turns the colour on and the code that resets it. Text
from outside may hold reset codes of its own, which would end the colour early; after
each of them the colour is turned on again.
-/

namespace Automata.Text

/-- Whether messages carry colour codes. -/
inductive Style where
  | plain
  | coloured
  deriving DecidableEq

/-- The colours that messages use. -/
inductive Colour where
  | boldRed
  | yellow
  | green
  deriving DecidableEq

/-- The code that resets every colour. -/
def resetCode : List Char := ['\x1b', '[', '0', 'm']

/-- The code that turns a colour on. -/
def Colour.code : Colour → List Char
  | .boldRed => ['\x1b', '[', '1', ';', '3', '1', 'm']
  | .yellow => ['\x1b', '[', '3', '3', 'm']
  | .green => ['\x1b', '[', '3', '2', 'm']

/-- The text with the code put in again after each reset code. -/
def reopenAfterReset (code : List Char) : List Char → List Char
  | '\x1b' :: '[' :: '0' :: 'm' :: rest => resetCode ++ code ++ reopenAfterReset code rest
  | c :: rest => c :: reopenAfterReset code rest
  | [] => []

/-- The text in a colour, or as it is in plain style. -/
def Style.paint (style : Style) (colour : Colour) (text : String) : String :=
  match style with
  | .plain => text
  | .coloured =>
    String.ofList (colour.code ++ reopenAfterReset colour.code text.toList ++ resetCode)

/-- A message's three-digit number in square brackets, painted bold red. -/
def Style.tag (style : Style) (number : String) : String :=
  style.paint .boldRed ("[" ++ number ++ "]")

end Automata.Text
