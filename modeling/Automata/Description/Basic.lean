import Automata.Error

/-!
# Automaton descriptions

A description lists the parts of an automaton and inputs to try on it. It says nothing
about the kind of automaton: it can be read as a deterministic and as a nondeterministic
one. States that edges join have names of one character.
-/

namespace Automata

/-- An edge between states with names of one character. -/
structure Description.Edge where
  source : Char
  symbol : Char
  target : Char
  deriving DecidableEq

/-- The parts of an automaton and inputs to try on it. -/
structure Description where
  finals : List String
  start : String
  /-- The states that may be missing from the other parts. -/
  states : List String
  edges : List Description.Edge
  inputs : List String
  deriving DecidableEq

namespace Description

open Text

/-- Why a description could not be used. -/
inductive Error where
  /-- The line, counted from one, cannot be read from these characters on. -/
  | malformed (line : Nat) (rest : List Char)
  /-- The automaton could not be built. -/
  | automaton (error : Automata.Error)
  deriving DecidableEq

/-- The message for a reader. -/
def Error.message (style : Style) : Error → String
  | .malformed line rest =>
    style.tag "201" ++ " cannot parse line " ++ toString line ++ " at " ++
      quote (String.ofList rest)
  | .automaton error => error.message style

end Description

end Automata
